import Interchange.Schema.Basic

/-! # Filling in names

What is declared under a key takes the key as its name. Readers leave the names of properties,
functions and events empty, and `Namespace.assignNames` fills them in.
-/

namespace Interchange.Schema

mutual

/-- Names every property in a type by its key. -/
def Ty.nameProperties : Ty → Ty
  | ⟨name, kind, origin⟩ => ⟨name, nameKind kind, origin⟩

def nameKind : Kind Ty → Kind Ty
  | .object ⟨properties⟩ additional =>
    .object ⟨nameEntries properties⟩ (nameAdditional additional)
  | .array items => .array items.nameProperties
  | .choices variants => .choices (nameVariants variants)
  | k => k

def nameEntries : List (String × PropertyOf Ty) → List (String × PropertyOf Ty)
  | [] => []
  | (key, ⟨_, optional, type⟩) :: es =>
    (key, ⟨key, optional, type.nameProperties⟩) :: nameEntries es

def nameAdditional : Option Ty → Option Ty
  | none => none
  | some t => some t.nameProperties

def nameVariants : List Ty → List Ty
  | [] => []
  | t :: ts => t.nameProperties :: nameVariants ts

end

/-- Gives a type a name if it has none. -/
def Ty.withDefaultName (t : Ty) (name : String) : Ty :=
  { t with name := some (t.name.getD name) }

/-- Names the properties inside the type of a parameter, which has its own name already. -/
def nameParams (params : List Property) : List Property :=
  params.map fun p => { p with type := p.type.nameProperties }

/-- Names everything that is declared in a namespace, by `Ty.withDefaultName` and
`Ty.nameProperties`. -/
def Namespace.assignNames (ns : Namespace) : Namespace where
  name := ns.name
  types := ⟨ns.types.entries.map fun (key, t) => (key, (t.withDefaultName key).nameProperties)⟩
  manifest := ns.manifest.map fun t => (t.withDefaultName "ManifestKeys").nameProperties
  functions := ⟨ns.functions.entries.map fun (key, f) =>
    (key, ⟨key, nameParams f.params, f.results.map nameParams⟩)⟩
  events := ⟨ns.events.entries.map fun (key, e) => (key, ⟨key, nameParams e.params⟩)⟩
  errorMessages := ns.errorMessages

end Interchange.Schema
