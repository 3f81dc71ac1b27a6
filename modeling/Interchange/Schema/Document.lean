import Interchange.Document.Reader
import Interchange.Schema.Naming
import Interchange.Schema.OfJson

/-! # Loading namespaces from documents

`loadNamespace` and `loadNamespaces` read a document in the order of its text and then fill in its
names (`Namespace.assignNames`). Only a type is read as a whole first, apart from its own name and
origin (`OpenType`), and then decoded (`Reading.decode`).
-/

namespace Interchange.Schema

open Document (Cause Error Found Place Reader)
open Document.Reader (glance openRecord)

namespace Reading

def origin : Reader Origin :=
  openRecord "struct Origin"
    [.of "from_json" (glance readBool) fun o b => { o with fromJson := b },
      .of "from_client" (glance readBool) fun o b => { o with fromClient := b },
      .of "from_manifest_keys" (glance readBool) fun o b => { o with fromManifest := b }]
    {}

/-- The name and the origin of a type, and its other members last first. -/
abbrev OpenType := Header × List (String × Json)

def checkMember (s : OpenType) (key : String) : Except Cause Unit :=
  if key = "name" then refuseRepeated key s.1.name
  else if key = "origin" then refuseRepeated key s.1.origin
  else .ok ()

def readMember (s : OpenType) (key : String) : Reader OpenType := fun p x =>
  if key = "name" then (glance readName p x).map fun name => ({ s.1 with name := some name }, s.2)
  else if key = "origin" then (origin p x).map fun o => ({ s.1 with origin := some o }, s.2)
  else (p.json x).map fun j => (s.1, (key, j) :: s.2)

/-- Decodes a type from its header and its other members, as `Ty.ofJson` does for a type inside
another one. -/
def decode (header : Header) (ms : List (String × Json)) : Except Cause Ty := do
  let tag ← Tag.read none ms
  let members ← readKind tag {} ms
  let kind ← members.kind tag
  return ⟨header.name.getD none, kind, header.origin.getD {}⟩

def type : Reader Ty := fun p x =>
  match x with
  | .object ms ending => do
    let p ← p.enter
    let (header, rest) ← Reader.members checkMember readMember p ending ({}, []) ms
    p.run (decode header rest.reverse)
  | x => Reader.mismatch "struct Type" p x

/-- Whether a property is optional, and its other members last first. -/
abbrev OpenProperty := Option Bool × List (String × Json)

def checkOptional (s : OpenProperty) (key : String) : Except Cause Unit :=
  if key = "optional" then refuseRepeated key s.1 else .ok ()

def readOptionalMember (s : OpenProperty) (key : String) : Reader OpenProperty := fun p x =>
  if key = "optional" then (glance readBool p x).map fun b => (some b, s.2)
  else (p.json x).map fun j => (s.1, (key, j) :: s.2)

/-- A property has no name yet; `params` and `Namespace.assignNames` give it one. -/
def property : Reader Property := fun p x =>
  match x with
  | .object ms ending => do
    let p ← p.enter
    let (optional, rest) ← Reader.members checkOptional readOptionalMember p ending (none, []) ms
    let type ← p.run do
      let header ← Header.read {} rest.reverse
      decode header rest.reverse
    return ⟨"", optional.getD false, type⟩
  | x => Reader.mismatch "struct Property" p x

/-- Parameters are written like the properties of an object, and take their keys for names. -/
def params : Reader (List Property) := fun p x =>
  (Reader.mapping property p x).map fun d => d.entries.map fun (key, q) => { q with name := key }

/-- The parameters of a callback. -/
def results : Reader (List Property) :=
  openRecord "struct AsyncReturn" [.of "params" params fun _ ps => ps] []

def function : Reader FunctionDecl :=
  openRecord "struct FunctionDecl"
    [.of "params" params fun f ps => { f with params := ps },
      .of "returns_async" (.optional results) fun f r => { f with results := r }]
    ⟨"", [], none⟩

def event : Reader EventDecl :=
  openRecord "struct EventDecl" [.of "params" params fun e ps => { e with params := ps }] ⟨"", []⟩

def errorMessages : Reader Bool :=
  openRecord "struct CompilerOptions"
    [.of "generate_error_messages" (glance readBool) fun _ b => b] false

def namespaceFields : List (Reader.Field Namespace) :=
  [.of "name" (glance readString) fun ns name => { ns with name },
    .of "types" (.mapping type) fun ns types => { ns with types },
    .of "manifest_keys" (.optional type) fun ns manifest => { ns with manifest },
    .of "functions" (.mapping function) fun ns functions => { ns with functions },
    .of "events" (.mapping event) fun ns events => { ns with events },
    .of "compiler_options" errorMessages fun ns on => { ns with errorMessages := on }]

/-- The error for a namespace without a name. -/
def nameless : Json.Outline → Cause
  | .array _ _ => .invalidLength 0 "struct Namespace with 6 elements"
  | _ => .missingField "name"

/-- A namespace as it is written, before `Namespace.assignNames`; only its name is needed. -/
def namespaceAsWritten : Reader Namespace := fun p x => do
  let (ns, given) ← Reader.record "struct Namespace" namespaceFields ⟨"", ∅, none, ∅, ∅, false⟩ p x
  if given.contains "name" then return ns else p.fail (nameless x)

end Reading

def loadNamespace (bs : List UInt8) : Except Error Namespace :=
  (Document.load Reading.namespaceAsWritten bs).map (·.assignNames)

def loadNamespaces (bs : List UInt8) : Except Error (List Namespace) :=
  (Document.load (.list Reading.namespaceAsWritten) bs).map (·.map (·.assignNames))

end Interchange.Schema
