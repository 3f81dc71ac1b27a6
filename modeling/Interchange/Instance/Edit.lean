import Interchange.Instance.Basic

/-! # Changing instances in place

A path leads to the data that is changed (`editAt`), and `apply` changes it there.

What an edit writes is built only where there is a place for it. So an edit that has no place is
refused as such (`misplaced`), whatever it would write.
-/

namespace Interchange.Data

inductive EditStep
  /-- A field that is present. -/
  | field (name : String)
  | item (i : Nat)
  /-- A typed extra property. -/
  | extra (key : String)
  deriving Repr

/-- An edit; building what it writes may fail with an error of type `ε`. -/
inductive Edit (ε : Type)
  | set (name : String) (d : Except ε Data)
  | clear (name : String)
  | setSlot (i : Nat) (d : Except ε Data)
  | clearSlot (i : Nat)
  | setExtras (e : Except ε Extras)
  | putAny (key : String) (v : Value)
  | putTyped (key : String) (d : Except ε Data)
  | push (d : Except ε Data)
  | replace (d : Except ε Data)

inductive EditError (ε : Type)
  /-- The path leads nowhere, or the edit does not fit what it leads to. -/
  | misplaced
  /-- What the edit writes could not be built. -/
  | unbuilt (e : ε)
  deriving Repr

variable {α ε : Type}

/-- A changed whole, or the whole as it was; and which of the two it is. -/
def changed (old : α) : Option α → α × Bool
  | some new => (new, true)
  | none => (old, false)

/-- Goes on with what an edit writes, or fails with `unbuilt`. -/
def writing (built : Except ε α) (write : α → Data × Bool) : Except (EditError ε) (Data × Bool) :=
  match built with
  | .ok a => .ok (write a)
  | .error e => .error (.unbuilt e)

/-- Applies an edit to data that it fits. The answer tells whether there was a field or slot to
change, and whether an extra property is new. -/
def apply (e : Edit ε) (d : Data) : Except (EditError ε) (Data × Bool) :=
  match e, d with
  | .set name x, .object o => writing x fun x => (changed o (o.set? name x)).map .object id
  | .clear name, .object o => .ok ((changed o (o.clear? name)).map .object id)
  | .setSlot i x, .choice c => writing x fun x => (changed c (c.set? i x)).map .choice id
  | .clearSlot i, .choice c => .ok ((changed c (c.clear? i)).map .choice id)
  | .setExtras e, .object o => writing e fun e => (.object { o with extras := e }, true)
  | .putAny key v, .object ⟨fields, .any es⟩ =>
    .ok (.object ⟨fields, .any (es.insert key v)⟩, !es.contains key)
  | .putTyped key x, .object ⟨fields, .typed es⟩ =>
    writing x fun x => (.object ⟨fields, .typed (es.insert key x)⟩, !es.contains key)
  | .push x, .array xs => writing x fun x => (.array (xs ++ [x]), true)
  | .replace x, _ => writing x fun x => (x, true)
  | _, _ => .error .misplaced

/-- The part that a step leads to, and the whole with another part in its place. -/
def enter (s : EditStep) (d : Data) : Option (Data × (Data → Data)) :=
  match s, d with
  | .field name, .object o => (o.get? name).map fun x => (x, fun y => .object (o.put name (some y)))
  | .item i, .array xs => (xs[i]?).map fun x => (x, fun y => .array (xs.set i y))
  | .extra key, .object ⟨fields, .typed es⟩ =>
    (es.get? key).map fun x => (x, fun y => .object ⟨fields, .typed (es.insert key y)⟩)
  | _, _ => none

/-- Applies an edit to the data that a path leads to, putting each part back into its whole
(`enter`). -/
def editAt (e : Edit ε) : List EditStep → Data → Except (EditError ε) (Data × Bool)
  | [], d => d.apply e
  | s :: path, d =>
    match d.enter s with
    | none => .error .misplaced
    | some (part, rebuild) => (editAt e path part).map fun r => (rebuild r.1, r.2)

/-- Applies an edit inside data, which is not replaced as a whole: `editAt` without an empty path to
`replace`. -/
def edit (path : List EditStep) (e : Edit ε) (d : Data) : Except (EditError ε) (Data × Bool) :=
  match path, e with
  | [], .replace _ => .error .misplaced
  | path, e => editAt e path d

end Interchange.Data
