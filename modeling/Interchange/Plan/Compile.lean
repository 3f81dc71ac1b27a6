import Interchange.Plan.Definition
import Interchange.Plan.Table

/-! # Plans of types

`ofType` turns a type into a plan. References become numbers: `keys` holds the keys of all
definitions in order, and a reference stands for the position of its destination's key
(`ofReference`).
-/

namespace Interchange.Plan

open Schema

/-- The label of a variant: its own name, the name of the type it refers to, or that of its kind. -/
def label (r : Registry) (space : String) (t : Ty) : String :=
  match t.name with
  | some name => name
  | none =>
    match t.kind with
    | .reference target =>
      match r.destination? space target with
      | some d => d.name
      | none => t.kind.name
    | k => k.name

/-- The plan of a reference, the number of its `destination?`. -/
def ofReference (r : Registry) (keys : List String) (space target : String) : Plan :=
  match r.destination? space target with
  | some d => .named (keys.idxOf d.qualified)
  | none => default

mutual

/-- The plan of a type that stands in a namespace. Types without a name are called after `owner`. -/
def ofType (r : Registry) (keys : List String) (space owner : String) : Ty → Plan
  | ⟨name, kind, _⟩ => ofKind r keys space owner (name.getD owner) kind

def ofKind (r : Registry) (keys : List String) (space owner name : String) : Kind Ty → Plan
  | .boolean => .inline .boolean
  | .integer => .inline .integer
  | .int64 => .inline .int64
  | .double => .inline .double
  | .string => .inline .string
  | .binary => .inline .binary
  | .any => .inline .any
  | .function serializable => .inline (.function serializable)
  | .enumeration members => .inline (.enumeration ⟨name, members⟩)
  | .array items => .inline (.array (ofType r keys space owner items))
  | .object ⟨properties⟩ additional =>
    .inline (.object ⟨name, ofProperties r keys space name properties, ofAdditional r keys space name additional⟩)
  | .choices variants => .inline (.choices ⟨name, ofVariants r keys space owner variants⟩)
  | .reference target => ofReference r keys space target

def ofProperties (r : Registry) (keys : List String) (space owner : String) :
    List (String × Schema.PropertyOf Ty) → List (PropertyOf Plan)
  | [] => []
  | (_, ⟨name, optional, type⟩) :: ps =>
    ⟨name, optional, ofType r keys space (owner ++ "." ++ name) type⟩ :: ofProperties r keys space owner ps

def ofAdditional (r : Registry) (keys : List String) (space owner : String) : Option Ty → Option Plan
  | none => none
  | some t => some (ofType r keys space owner t)

def ofVariants (r : Registry) (keys : List String) (space owner : String) :
    List Ty → List (VariantOf Plan)
  | [] => []
  | t :: ts => ⟨label r space t, ofType r keys space owner t⟩ :: ofVariants r keys space owner ts

end

/-- The plan of a parameter list, that of an object with these properties. -/
def ofParams (r : Registry) (keys : List String) (space owner : String) (params : List Property) :
    ObjectPlan :=
  ⟨owner, ofProperties r keys space owner (params.map fun p => (p.name, p)), none⟩

/-- The table entry of a definition, the `ofType` of its type. -/
def ofDefinition (r : Registry) (keys : List String) (d : Definition) : Entry :=
  ⟨d.display, ofType r keys d.space d.display d.type⟩

end Interchange.Plan
