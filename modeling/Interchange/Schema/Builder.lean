import Interchange.Schema.Basic

/-! # Building schemas by hand

Types and namespaces put together directly, where `Schema.loadNamespace` reads them from a document.
-/

namespace Interchange.Schema

namespace Origin

/-- Read from JSON and sent back to clients. -/
def jsonAndClient : Origin := { fromJson := true, fromClient := true }

def manifest : Origin := { fromManifest := true }

end Origin

namespace Ty

/-- A type without a name and of no origin. -/
def ofKind (k : Kind Ty) : Ty := ⟨none, k, {}⟩

/-- An object type. A later property replaces an earlier one of its name in place (`Dict.ofList`).
-/
def object (properties : List Property) : Ty :=
  ofKind (.object (.ofList (properties.map fun p => (p.name, p))) none)

/-- Sets the type of additional properties; only object types have one. -/
def withAdditional (t : Ty) (additional : Ty) : Ty :=
  match t.kind with
  | .object properties _ => { t with kind := .object properties (some additional) }
  | _ => t

def named (t : Ty) (name : String) : Ty := { t with name := some name }

def withOrigin (t : Ty) (origin : Origin) : Ty := { t with origin }

end Ty

namespace Namespace

def empty (name : String) : Namespace := ⟨name, ∅, none, ∅, ∅, false⟩

/-- Adds a type under its own name, in the place of an earlier one (`Dict.insert`). -/
def withType (ns : Namespace) (t : Ty) : Namespace :=
  { ns with types := ns.types.insert (t.name.getD "") t }

def withManifest (ns : Namespace) (t : Ty) : Namespace := { ns with manifest := some t }

def withFunction (ns : Namespace) (f : FunctionDecl) : Namespace :=
  { ns with functions := ns.functions.insert f.name f }

def withEvent (ns : Namespace) (e : EventDecl) : Namespace :=
  { ns with events := ns.events.insert e.name e }

def withErrorMessages (ns : Namespace) (on : Bool) : Namespace := { ns with errorMessages := on }

end Namespace

end Interchange.Schema
