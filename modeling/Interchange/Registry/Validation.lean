import Interchange.Registry.Basic

/-! # Checking all types of a registry

`validate` checks that every reference leads somewhere, and that nothing that offers a choice is
empty. What is demanded of a type (`demands`) is kept apart from checking it (`meet`).
-/

namespace Interchange.Registry

open Schema

/-- Something that must hold of a type, as `meet` checks it. -/
inductive Demand
  /-- The type is a reference that can be followed. -/
  | leads (type : Ty)
  | someVariant (place : String) (variants : List Ty)
  | someMember (place : String) (members : List String)

mutual

/-- What is demanded of a type and of all types in it, in the order in which `validate` checks it.
-/
def demands (place : String) : Ty → List Demand
  | ⟨name, kind, origin⟩ => kindDemands place ⟨name, kind, origin⟩ kind

def kindDemands (place : String) (t : Ty) : Kind Ty → List Demand
  | .reference _ => [.leads t]
  | .object ⟨properties⟩ additional =>
    propertyDemands place properties ++ additionalDemands place additional
  | .array items => demands place items
  | .choices variants => .someVariant place variants :: variantDemands place variants
  | .enumeration members => [.someMember place members]
  | _ => []

def propertyDemands (place : String) : List (String × PropertyOf Ty) → List Demand
  | [] => []
  | (key, ⟨_, _, type⟩) :: ps => demands (place ++ "." ++ key) type ++ propertyDemands place ps

def additionalDemands (place : String) : Option Ty → List Demand
  | none => []
  | some t => demands place t

def variantDemands (place : String) : List Ty → List Demand
  | [] => []
  | t :: ts => demands place t ++ variantDemands place ts

end

def paramDemands (owner : String) (params : List Property) : List Demand :=
  params.flatMap fun p => demands (owner ++ "." ++ p.name) p.type

def functionDemands (f : FunctionDecl) : List Demand :=
  paramDemands f.name f.params ++ paramDemands f.name (f.results.getD [])

def namespaceDemands (ns : Namespace) : List Demand :=
  (ns.types.entries.flatMap fun (name, t) => demands name t) ++
  (ns.manifest.toList.flatMap fun t => demands (t.name.getD "manifest_keys") t) ++
  ns.functions.values.flatMap functionDemands ++
  ns.events.values.flatMap fun e => paramDemands e.name e.params

def meet (r : Registry) (space : String) : Demand → Except GenerateError Unit
  | .leads t => (r.follow space t).map fun _ => ()
  | .someVariant place variants =>
    if variants.isEmpty then .error (.emptyChoices place) else .ok ()
  | .someMember place members =>
    if members.isEmpty then .error (.emptyEnumeration place) else .ok ()

/-- Checks every type of every namespace; the first of the `namespaceDemands` that fails is
reported. -/
def validate (r : Registry) : Except GenerateError Unit :=
  r.namespaces.forM fun ns => (namespaceDemands ns).forM (r.meet ns.name)

end Interchange.Registry
