import Interchange.Document.Error

/-! # Places in a document that is being read

A `Place` is where a reader stands: the steps from the root, which `Place.fail` puts into the error,
and how deep it may still go (`Place.enter`). `Place.json` reads the value there as plain JSON.
-/

namespace Interchange.Document

open Json (SyntaxError Token Ending Expecting Outline)

structure Place where
  /-- The steps from the root, last first. -/
  steps : List Step := []
  /-- How many more arrays and objects may be entered; `none` for any number. -/
  levels : Option Nat := some 127
  deriving Repr

namespace Place

variable {α : Type}

def path (p : Place) : Path := p.steps.reverse

def fail (p : Place) (cause : Cause) : Except Error α := .error ⟨p.path, cause⟩

/-- Places a result that knows no place yet: its cause fails at `p`. -/
def run (p : Place) : Except Cause α → Except Error α
  | .ok a => .ok a
  | .error cause => p.fail cause

/-- Places something read from the text itself: its syntax error fails at `p` as `malformed`. -/
def take (p : Place) : Except SyntaxError α → Except Error α
  | .ok a => .ok a
  | .error e => p.fail (.malformed e)

def field (p : Place) (name : String) : Place := { p with steps := .key name :: p.steps }

def item (p : Place) (i : Nat) : Place := { p with steps := .index i :: p.steps }

/-- The member whose key could not be read, the step `unknown`. -/
def nameless (p : Place) : Place := { p with steps := .unknown :: p.steps }

/-- Enters an array or an object, at the cost of one of the `levels`. -/
def enter (p : Place) : Except Error Place :=
  match p.levels with
  | none => .ok p
  | some 0 => p.fail (.malformed .tooDeep)
  | some (n + 1) => .ok { p with levels := some n }

/-- Reads a key of the object at `p`. -/
def key (p : Place) (k : Except SyntaxError String) : Except Error String := p.nameless.take k

/-- The end of the array at `p`. -/
def endItems (p : Place) : Ending → Except Error Unit
  | .closed | .cut => .ok ()
  | .stopped e found => p.fail (.malformed (e.error found))

/-- The end of the object at `p`. A key without its colon is still looked at by `check`. -/
def endMembers (p : Place) (check : String → Except Cause Unit) : Ending → Except Error Unit
  | .closed | .cut => .ok ()
  | .stopped (.colon k) found => do
    let k ← p.key k
    p.run (check k)
    p.fail (.malformed (Expecting.error (.colon (.ok k)) found))
  | .stopped e found => p.nameless.fail (.malformed (e.error found))

mutual

/-- Reads a value as plain JSON. Objects keep every member, repeated keys included. -/
def json (p : Place) : Outline → Except Error Json
  | .null => .ok .null
  | .bool b => .ok (.bool b)
  | .number n => (p.take n.read).map .number
  | .string s => (p.take s).map .string
  | .array items ending => do
    let p ← p.enter
    let js ← jsonItems p 0 items
    p.endItems ending
    return .array js
  | .object members ending => do
    let p ← p.enter
    let ms ← jsonMembers p members
    p.endMembers (fun _ => .ok ()) ending
    return .object ⟨ms⟩
  | .broken found => p.fail (.malformed (Token.valueError found))

def jsonItems (p : Place) (i : Nat) : List Outline → Except Error (List Json)
  | [] => .ok []
  | x :: xs => do
    let j ← json (p.item i) x
    let js ← jsonItems p (i + 1) xs
    return j :: js

def jsonMembers (p : Place) :
    List (Except SyntaxError String × Outline) → Except Error (List (String × Json))
  | [] => .ok []
  | (k, x) :: ms => do
    let k ← p.key k
    let j ← json (p.field k) x
    let js ← jsonMembers p ms
    return (k, j) :: js

end

end Place

/-- The JSON value at the front of a text, nested as deep as it likes: no `levels` are counted. -/
def parseJson (bs : List UInt8) : Except Error Json :=
  (Place.json { levels := none } (Outline.ofBytes bs)).map Json.canonical

/-! ## What is found in a place -/

/-- What stands in the place of a value, as far as a glance shows it. -/
def Found.ofOutline : Outline → Except SyntaxError Found
  | .null => .ok .null
  | .bool b => .ok (.bool b)
  | .number n => n.read.map .number
  | .string s => s.map .string
  | .array _ _ => .ok .sequence
  | .object _ _ => .ok .map
  | .broken found => .error (Token.valueError found)

def Found.ofJson : Json → Found
  | .null => .null
  | .bool b => .bool b
  | .number n => .number n
  | .string s => .string s
  | .array _ => .sequence
  | .object _ => .map

def Found.mismatch {α : Type} (found : Found) (expected : String) : Except Cause α :=
  .error (.invalidType found expected)

end Interchange.Document
