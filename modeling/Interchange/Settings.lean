import Interchange.Convention
import Interchange.Document.Reader

/-! # Settings of a generation run

`Settings.load` reads them from a document. A convention that is set here takes precedence over the
one that `Convention.ofErrorMessages` finds for the namespace.
-/

namespace Interchange

structure Settings where
  /-- Takes precedence over what the namespace asks for. -/
  convention : Option Convention := none
  deriving Repr, DecidableEq

namespace Settings

open Document (Cause Error Place Reader)
open Json (Ending Expecting Token)

def readConvention (name : String) : Except Cause Convention :=
  if name = "silent" then .ok .silent
  else if name = "diagnostic" then .ok .diagnostic
  else .error (.unknownVariant name ["silent", "diagnostic"])

/-- The end of an object that names a variant, for `conventionReader`: only the closing brace may
follow. -/
def endVariant (p : Place) : Ending → Except Error Unit
  | .closed => .ok ()
  | .stopped .memberEnd none => p.fail (.malformed .endInObject)
  | _ => p.fail (.malformed .expectedValue)

/-- A convention is named by a string, or by the key of an object with the single value null. -/
def conventionReader : Reader Convention := fun p x =>
  match x with
  | .string s => do
    let s ← p.take s
    p.run (readConvention s)
  | .object [] .closed => do
    let p ← p.enter
    p.fail (.malformed .expectedValue)
  | .object [] (.stopped (.colon k) t) => do
    let p ← p.enter
    let k ← p.take k
    let _ ← p.run (readConvention k)
    p.fail (.malformed (Expecting.error (.colon (.ok k)) t))
  | .object [] (.stopped e t) => do
    let p ← p.enter
    p.fail (.malformed (e.error t))
  | .object ((k, x) :: ms) ending => do
    let p ← p.enter
    let k ← p.take k
    let c ← p.run (readConvention k)
    match x with
    | .null => .ok ()
    | x => Reader.mismatch "unit" (p.field k) x
    if ms.isEmpty then endVariant p ending else p.fail (.malformed .expectedValue)
    return c
  | .broken none => p.fail (.malformed .endInValue)
  | .broken (some (.badWord .null atEnd)) => p.fail (.malformed (Token.valueError (some (.badWord .null atEnd))))
  | .broken (some (.badString reading _)) => p.fail (.malformed reading)
  | _ => p.fail (.malformed .expectedValue)

def reader : Reader Settings :=
  .openRecord "struct GeneratorConfig"
    [.of "error_convention" (.optional conventionReader) fun s c => { s with convention := c }] {}

def load (bs : List UInt8) : Except Error Settings := Document.load reader bs

end Settings

end Interchange
