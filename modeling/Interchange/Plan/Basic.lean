import Interchange.Schema.Basic

/-! # Plans

A `Plan` is a type without references by name: either written out (`inline`) or the number of an
entry of a table (`named`), so that recursive types have finite plans.
-/

namespace Interchange

namespace Plan

structure EnumPlan where
  name : String
  members : List String
  deriving Repr, DecidableEq

structure PropertyOf (α : Type) where
  name : String
  optional : Bool
  plan : α
  deriving Repr

structure ObjectOf (α : Type) where
  name : String
  properties : List (PropertyOf α)
  additional : Option α
  deriving Repr

structure VariantOf (α : Type) where
  label : String
  plan : α
  deriving Repr

structure ChoicesOf (α : Type) where
  name : String
  variants : List (VariantOf α)
  deriving Repr

/-- One layer of a plan, whose parts are of type `α`. The type of plans is its closure. -/
inductive ShapeOf (α : Type)
  | boolean
  | integer
  | int64
  | double
  | string
  | binary
  | any
  | function (serializable : Bool)
  | enumeration (e : EnumPlan)
  | array (items : α)
  | object (o : ObjectOf α)
  | choices (c : ChoicesOf α)
  deriving Repr

end Plan

/-- A plan; `named` is the plan of a table's entry. -/
inductive Plan
  | named (id : Nat)
  | inline (shape : Plan.ShapeOf Plan)
  deriving Repr

namespace Plan

abbrev Shape := ShapeOf Plan
abbrev ObjectPlan := ObjectOf Plan
abbrev PropertyPlan := PropertyOf Plan
abbrev ChoicesPlan := ChoicesOf Plan
abbrev VariantPlan := VariantOf Plan

instance : Inhabited Plan := ⟨.inline .any⟩

/-- The kind of a shape, which `Kind.tag` gives for the type. -/
def ShapeOf.tag {α : Type} : ShapeOf α → Schema.Tag
  | .boolean => .boolean
  | .integer => .integer
  | .int64 => .int64
  | .double => .double
  | .string => .string
  | .binary => .binary
  | .any => .any
  | .function _ => .function
  | .enumeration _ => .enumeration
  | .array _ => .array
  | .object _ => .object
  | .choices _ => .choices

/-- The name of the kind, as `Kind.name` gives it for the type. -/
def ShapeOf.kindName {α : Type} (s : ShapeOf α) : String := s.tag.name

end Plan

end Interchange
