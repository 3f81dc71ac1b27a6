import Interchange.Value.Basic

/-! # Instances of types

`Data` is what values are read into and written from: an `Object` with a slot for each declared
field, a `Choice` with a slot for each variant, and data of the other kinds. `Data.same` is equality
of instances.
-/

namespace Interchange

/-- A member of an enumeration by its position, counted from one; zero stands for no member. -/
structure EnumValue where
  code : UInt32
  deriving Repr, DecidableEq

namespace EnumValue

def none : EnumValue := ⟨0⟩

def member (ordinal : Nat) : EnumValue := ⟨UInt32.ofNat ordinal + 1⟩

def ordinal? (e : EnumValue) : Option Nat :=
  if e.code = 0 then Option.none else some (e.code.toNat - 1)

def isNone (e : EnumValue) : Bool := e == none

instance : Inhabited EnumValue := ⟨none⟩

end EnumValue

namespace Data

/-- Properties that an object holds beside its declared ones. -/
inductive ExtrasOf (α : Type)
  /-- There can be none. -/
  | closed
  | any (entries : Dict Value)
  | typed (entries : Dict α)
  deriving Repr

/-- An object with its declared fields in order; the slot of an absent one is `none`. -/
structure ObjectOf (α : Type) where
  fields : Dict (Option α)
  extras : ExtrasOf α
  deriving Repr

/-- One slot for each variant. -/
structure ChoiceOf (α : Type) where
  slots : List (Option α)
  deriving Repr

end Data

/-- The content of an instance. Serializable functions are strings. -/
inductive Data
  | boolean (b : Bool)
  | integer (n : Int32)
  | int64 (n : Int64)
  | double (d : Double)
  | string (s : String)
  | binary (bytes : List UInt8)
  | enumeration (e : EnumValue)
  | any (v : Value)
  | function (v : Value)
  | array (items : List Data)
  | object (o : Data.ObjectOf Data)
  | choice (c : Data.ChoiceOf Data)
  deriving Repr, Inhabited

abbrev Extras := Data.ExtrasOf Data
abbrev Object := Data.ObjectOf Data
abbrev Choice := Data.ChoiceOf Data

namespace Data

/-- The name of the kind in errors about instances (`InstanceError`). -/
def kindName : Data → String
  | .boolean _ => "boolean"
  | .integer _ => "integer"
  | .int64 _ => "int64"
  | .double _ => "double"
  | .string _ => "string"
  | .binary _ => "binary"
  | .enumeration _ => "enum"
  | .any _ => "any"
  | .function _ => "function"
  | .array _ => "array"
  | .object _ => "object"
  | .choice _ => "choices"

/-- Whether the data holds nothing but itself. -/
def isScalar : Data → Bool
  | .boolean _ | .integer _ | .int64 _ | .double _ | .string _ | .binary _ | .enumeration _ => true
  | _ => false

def bool? : Data → Option Bool
  | .boolean b => some b
  | _ => none

def int? : Data → Option Int32
  | .integer n => some n
  | _ => none

def int64? : Data → Option Int64
  | .int64 n => some n
  | _ => none

def double? : Data → Option Double
  | .double d => some d
  | _ => none

def string? : Data → Option String
  | .string s => some s
  | _ => none

def enum? : Data → Option EnumValue
  | .enumeration e => some e
  | _ => none

def any? : Data → Option Value
  | .any v => some v
  | _ => none

def array? : Data → Option (List Data)
  | .array items => some items
  | _ => none

def object? : Data → Option Object
  | .object o => some o
  | _ => none

def choice? : Data → Option Choice
  | .choice c => some c
  | _ => none

/-- Whether a slot has content; an enumeration without a member counts as empty. -/
def engaged : Option Data → Bool
  | none => false
  | some (.enumeration e) => !e.isNone
  | some _ => true

instance : Inhabited (ObjectOf Data) := ⟨⟨∅, .closed⟩⟩

instance : Inhabited (ChoiceOf Data) := ⟨⟨[]⟩⟩

namespace ObjectOf

/-- The content of a field, if it is declared and present. -/
def get? (o : Object) (name : String) : Option Data := (o.fields.get? name).join

/-- Writes a slot, which is added at the end when the object has none of the name, like
`Dict.insert`. -/
def put (o : Object) (name : String) (slot : Option Data) : Object :=
  { o with fields := o.fields.insert name slot }

/-- Adds an empty slot when the object has none of the name. -/
def reserve (o : Object) (name : String) : Object :=
  if o.fields.contains name then o else o.put name none

/-- Sets a field by `put`, if there is one of the name. -/
def set? (o : Object) (name : String) (d : Data) : Option Object :=
  if o.fields.contains name then some (o.put name (some d)) else none

/-- Makes a field absent by `put`, if there is one of the name. -/
def clear? (o : Object) (name : String) : Option Object :=
  if o.fields.contains name then some (o.put name none) else none

end ObjectOf

namespace ChoiceOf

/-- The content of a slot. -/
def get? (c : Choice) (i : Nat) : Option Data := (c.slots[i]?).join

/-- Sets a slot, if there is one. -/
def set? (c : Choice) (i : Nat) (d : Data) : Option Choice :=
  if i < c.slots.length then some ⟨c.slots.set i (some d)⟩ else none

/-- Empties a slot, if there is one. -/
def clear? (c : Choice) (i : Nat) : Option Choice :=
  if i < c.slots.length then some ⟨c.slots.set i none⟩ else none

/-- The positions of the slots with content, in the sense of `Data.engaged`. -/
def engaged (c : Choice) : List Nat :=
  (List.range c.slots.length).filter fun i => Data.engaged (c.get? i)

end ChoiceOf

namespace ExtrasOf

def any? : Extras → Option (Dict Value)
  | .any d => some d
  | _ => none

def typed? : Extras → Option (Dict Data)
  | .typed d => some d
  | _ => none

end ExtrasOf

mutual

/-- Equality of data: dictionaries are compared as maps, and doubles as numbers by `Double.same`. -/
def same : Data → Data → Bool
  | .boolean a, .boolean b => a == b
  | .integer a, .integer b => a == b
  | .int64 a, .int64 b => a == b
  | .double a, .double b => a.same b
  | .string a, .string b => a == b
  | .binary a, .binary b => a == b
  | .enumeration a, .enumeration b => a == b
  | .any a, .any b => a.same b
  | .function a, .function b => a.same b
  | .array a, .array b => sameItems a b
  | .object a, .object b => sameObject a b
  | .choice a, .choice b => sameChoice a b
  | _, _ => false

def sameItems : List Data → List Data → Bool
  | [], [] => true
  | a :: as, b :: bs => same a b && sameItems as bs
  | _, _ => false

def sameSlot : Option Data → Option Data → Bool
  | none, none => true
  | some a, some b => same a b
  | _, _ => false

def sameSlots : List (Option Data) → List (Option Data) → Bool
  | [], [] => true
  | a :: as, b :: bs => sameSlot a b && sameSlots as bs
  | _, _ => false

def sameObject : ObjectOf Data → ObjectOf Data → Bool
  | ⟨⟨a⟩, e⟩, ⟨b, e'⟩ => a.length == b.size && sameFields a b && sameExtras e e'

/-- The fields' half of `same`: each has its counterpart in `b`. -/
def sameFields : List (String × Option Data) → Dict (Option Data) → Bool
  | [], _ => true
  | (k, a) :: as, b =>
    (match b.get? k with
    | some s => sameSlot a s
    | none => false) && sameFields as b

def sameExtras : ExtrasOf Data → ExtrasOf Data → Bool
  | .closed, .closed => true
  | .any a, .any b => (Value.dict a).same (.dict b)
  | .typed ⟨a⟩, .typed b => a.length == b.size && sameEntries a b
  | _, _ => false

/-- The half of `same` on typed extras: each entry has its counterpart in `b`. -/
def sameEntries : List (String × Data) → Dict Data → Bool
  | [], _ => true
  | (k, a) :: as, b =>
    (match b.get? k with
    | some d => same a d
    | none => false) && sameEntries as b

def sameChoice : ChoiceOf Data → ChoiceOf Data → Bool
  | ⟨a⟩, ⟨b⟩ => sameSlots a b

end

end Data

end Interchange
