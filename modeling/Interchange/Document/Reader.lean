import Interchange.Document.Place

/-! # Readers of documents

A `Reader` reads the `Outline` in a place. Lists (`list`), mappings (`mapping`) and records with
fixed fields (`record`) are read in the order of the text, so the first thing wrong in that order is
what a reader reports. `load` reads the value at the front of a text.
-/

namespace Interchange.Document

open Json (SyntaxError Ending Outline)

variable {α σ : Type}

abbrev Reader (α : Type) := Place → Outline → Except Error α

namespace Reader

/-- Reads what a glance shows, `Found.ofOutline`. -/
def glance (read : Found → Except Cause α) : Reader α := fun p x => do
  let found ← p.take (Found.ofOutline x)
  p.run (read found)

/-- Refuses a value, whatever it is, by `Found.mismatch`. -/
def mismatch (expected : String) : Reader α := glance fun found => found.mismatch expected

/-- Passes over a value; it must be well formed as far as `Outline.skipError?` can tell. -/
def skip : Reader Unit := fun p x =>
  match x.skipError? with
  | none => .ok ()
  | some e => p.fail (.malformed e)

def optional (read : Reader α) : Reader (Option α) := fun p x =>
  match x with
  | .null => .ok none
  | x => (read p x).map some

def items (read : Reader α) (p : Place) (i : Nat) : List Outline → Except Error (List α)
  | [] => .ok []
  | x :: xs => do
    let a ← read (p.item i) x
    let as ← items read p (i + 1) xs
    return a :: as

def list (read : Reader α) : Reader (List α) := fun p x =>
  match x with
  | .array xs ending => do
    let p ← p.enter
    let as ← items read p 0 xs
    p.endItems ending
    return as
  | x => mismatch "a sequence" p x

/-- Reads the members of an object one by one. `check` looks at a key before its value is read. -/
def members (check : σ → String → Except Cause Unit) (step : σ → String → Reader σ) (p : Place)
    (ending : Ending) (s : σ) : List (Except SyntaxError String × Outline) → Except Error σ
  | [] => do
    p.endMembers (check s) ending
    return s
  | (k, x) :: ms => do
    let k ← p.key k
    p.run (check s k)
    let s ← step s k (p.field k) x
    members check step p ending s ms

/-- Reads an object as a dictionary. A key that is given again takes its value from there
(`Dict.insert`). -/
def mapping (read : Reader α) : Reader (Dict α) := fun p x =>
  match x with
  | .object ms ending => do
    let p ← p.enter
    let step := fun (d : Dict α) k p x => (read p x).map (d.insert k)
    members (fun _ _ => .ok ()) step p ending ∅ ms
  | x => mismatch "a map" p x

/-! ## Records -/

/-- A field of a record: reading it adds to the `σ` that has been read of the record. -/
structure Field (σ : Type) where
  name : String
  read : σ → Reader σ

/-- Makes a field out of a reader and an update. -/
def Field.of (name : String) (read : Reader α) (put : σ → α → σ) : Field σ :=
  ⟨name, fun s p x => (read p x).map (put s)⟩

/-- A known field must not be given twice; the keys given before are the second part of the state.
-/
def checkField (fields : List (Field σ)) (s : σ × List String) (key : String) : Except Cause Unit :=
  if fields.any (·.name == key) && s.2.contains key then .error (.duplicateField key) else .ok ()

/-- Reads a field by its key; an unknown one is passed over (`skip`). -/
def readField (fields : List (Field σ)) (s : σ × List String) (key : String) :
    Reader (σ × List String) := fun p x =>
  match fields.find? (·.name == key) with
  | some f => (f.read s.1 p x).map fun r => (r, key :: s.2)
  | none => (skip p x).map fun _ => s

/-- The end of a list of fields: nothing may follow the last one. -/
def endPositions (p : Place) : List Outline → Ending → Except Error Unit
  | [], .closed => .ok ()
  | [], .stopped .itemEnd none => p.fail (.malformed .endInList)
  | [], .stopped .item (some .endList) => p.fail (.malformed .trailingComma)
  | _, _ => p.fail (.malformed .trailingCharacters)

/-- Reads fields by their position, as `readField` does by their key. Fields at the end may be left
out. -/
def positions (p : Place) (ending : Ending) (s : σ × List String) (i : Nat) :
    List (Field σ) → List Outline → Except Error (σ × List String)
  | f :: fs, x :: xs => do
    let r ← f.read s.1 (p.item i) x
    positions p ending (r, f.name :: s.2) (i + 1) fs xs
  | _ :: _, [] => do
    p.endItems ending
    return s
  | [], xs => do
    endPositions p xs ending
    return s

/-- Reads a record, an object of its fields (`members`) or a list of them in order (`positions`),
and the names of the fields that were given. -/
def record (expected : String) (fields : List (Field σ)) (start : σ) : Reader (σ × List String) :=
  fun p x =>
    match x with
    | .object ms ending => do
      let p ← p.enter
      members (checkField fields) (readField fields) p ending (start, []) ms
    | .array xs ending => do
      let p ← p.enter
      positions p ending (start, []) 0 fields xs
    | x => mismatch expected p x

/-- A `record` all of whose fields may be left out. -/
def openRecord (expected : String) (fields : List (Field σ)) (start : σ) : Reader σ := fun p x =>
  (record expected fields start p x).map (·.1)

end Reader

/-- Reads the value at the front of a text. What follows it is not looked at. -/
def load (read : Reader α) (bs : List UInt8) : Except Error α := read {} (Outline.ofBytes bs)

end Interchange.Document
