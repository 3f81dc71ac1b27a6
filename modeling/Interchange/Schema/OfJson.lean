import Interchange.Document.Place
import Interchange.Schema.Basic

/-! # Types as they are written in JSON

A type is an object whose member `type` says which further members count. `Ty.ofJson` looks at its
name and origin first (`Header.read`), then at `type` (`Tag.read`), then at the members of that kind
(`readKind`); each time in the order of the text. Members of other kinds are passed over.
-/

namespace Interchange.Schema

open Document (Cause Found)

/-! ## Plain members -/

def readBool : Found → Except Cause Bool
  | .bool b => .ok b
  | found => found.mismatch "a boolean"

def readString : Found → Except Cause String
  | .string s => .ok s
  | found => found.mismatch "a string"

/-- A string that may be null, where `readString` refuses null. -/
def readName : Found → Except Cause (Option String)
  | .null => .ok none
  | found => (readString found).map some

/-- Refuses a field that has been given before. -/
def refuseRepeated {α : Type} (field : String) : Option α → Except Cause Unit
  | none => .ok ()
  | some _ => .error (.duplicateField field)

/-- The flags of an origin that have been given so far. -/
structure Flags where
  fromJson : Option Bool := none
  fromClient : Option Bool := none
  fromManifest : Option Bool := none

def Flags.origin (s : Flags) : Origin :=
  ⟨s.fromJson.getD false, s.fromClient.getD false, s.fromManifest.getD false⟩

def Flags.read (s : Flags) : List (String × Json) → Except Cause Flags
  | [] => .ok s
  | (k, j) :: ms =>
    if k = "from_json" then do
      refuseRepeated k s.fromJson
      let b ← readBool (.ofJson j)
      Flags.read { s with fromJson := some b } ms
    else if k = "from_client" then do
      refuseRepeated k s.fromClient
      let b ← readBool (.ofJson j)
      Flags.read { s with fromClient := some b } ms
    else if k = "from_manifest_keys" then do
      refuseRepeated k s.fromManifest
      let b ← readBool (.ofJson j)
      Flags.read { s with fromManifest := some b } ms
    else Flags.read s ms

/-- An origin is an object of flags (`Flags.read`), or a list of them in order. -/
def Origin.ofJson : Json → Except Cause Origin
  | .object ⟨ms⟩ => (Flags.read {} ms).map Flags.origin
  | .array js => do
    let flags ← (js.take 3).mapM fun j => readBool (.ofJson j)
    if 3 < js.length then .error (.invalidLength js.length "3 elements in sequence")
    return ⟨flags.getD 0 false, flags.getD 1 false, flags.getD 2 false⟩
  | j => (Found.ofJson j).mismatch "struct Origin"

/-- Name and origin of a type, as far as they are given. -/
structure Header where
  name : Option (Option String) := none
  origin : Option Origin := none

def Header.read (s : Header) : List (String × Json) → Except Cause Header
  | [] => .ok s
  | (k, j) :: ms =>
    if k = "name" then do
      refuseRepeated k s.name
      let name ← readName (.ofJson j)
      Header.read { s with name := some name } ms
    else if k = "origin" then do
      refuseRepeated k s.origin
      let origin ← Origin.ofJson j
      Header.read { s with origin := some origin } ms
    else Header.read s ms

/-- A kind is given by its name or by its number, the position in `Tag.all`. -/
def Tag.ofFound : Found → Except Cause Tag
  | .string s =>
    match Tag.all.find? (·.name == s) with
    | some tag => .ok tag
    | none => .error (.unknownVariant s (Tag.all.map Tag.name))
  | .number (.int (.ofNat n)) =>
    match Tag.all[n]? with
    | some tag => .ok tag
    | none => .error (.invalidIndex n Tag.all.length)
  | found => found.mismatch "variant identifier"

/-- The kind among the members of a type, by `Tag.ofFound`; it must be given once. -/
def Tag.read (tag : Option Tag) : List (String × Json) → Except Cause Tag
  | [] =>
    match tag with
    | some tag => .ok tag
    | none => .error (.missingField "type")
  | (k, j) :: ms =>
    if k = "type" then do
      refuseRepeated k tag
      let tag ← Tag.ofFound (.ofJson j)
      Tag.read (some tag) ms
    else Tag.read tag ms

/-- Whether a property may be left out. -/
def readOptional (optional : Option Bool) : List (String × Json) → Except Cause Bool
  | [] => .ok (optional.getD false)
  | (k, j) :: ms =>
    if k = "optional" then do
      refuseRepeated k optional
      let b ← readBool (.ofJson j)
      readOptional (some b) ms
    else readOptional optional ms

/-- The names of an enumeration. -/
def readMembers : Json → Except Cause (List String)
  | .array js => js.mapM fun j => readString (.ofJson j)
  | j => (Found.ofJson j).mismatch "a sequence"

/-! ## The members of a kind -/

/-- A member that belongs to a kind. -/
inductive Member
  | properties | additional | items | variants | members | serializable | target
  deriving DecidableEq

/-- The member of a kind that is written under a key; `readKind` passes over the others. -/
def Tag.member? : Tag → String → Option Member
  | .object, "properties" => some .properties
  | .object, "additional_properties" => some .additional
  | .array, "items" => some .items
  | .choices, "choices" => some .variants
  | .enumeration, "enum" => some .members
  | .function, "serializable" => some .serializable
  | .reference, "$ref" => some .target
  | _, _ => none

/-- The members of a kind that have been given so far; `Members.kind` demands those that must be. -/
structure Members where
  properties : Option (Dict Property) := none
  additional : Option (Option Ty) := none
  items : Option Ty := none
  variants : Option (List Ty) := none
  members : Option (List String) := none
  serializable : Option Bool := none
  target : Option String := none

def required {α : Type} (field : String) : Option α → Except Cause α
  | some a => .ok a
  | none => .error (.missingField field)

def Members.kind (s : Members) : Tag → Except Cause (Kind Ty)
  | .boolean => .ok .boolean
  | .integer => .ok .integer
  | .int64 => .ok .int64
  | .double => .ok .double
  | .string => .ok .string
  | .any => .ok .any
  | .binary => .ok .binary
  | .object => .ok (.object (s.properties.getD ∅) (s.additional.getD none))
  | .array => (required "items" s.items).map .array
  | .choices => (required "choices" s.variants).map .choices
  | .enumeration => (required "enum" s.members).map .enumeration
  | .function => .ok (.function (s.serializable.getD false))
  | .reference => (required "$ref" s.target).map .reference

mutual

def Ty.ofJson : Json → Except Cause Ty
  | .object ⟨ms⟩ => do
    let header ← Header.read {} ms
    let tag ← Tag.read none ms
    let members ← readKind tag {} ms
    let kind ← members.kind tag
    return ⟨header.name.getD none, kind, header.origin.getD {}⟩
  | j => (Found.ofJson j).mismatch "struct Type"

/-- A property is a type that may also be marked optional. Its name is left to
`Namespace.assignNames`. -/
def propertyOfJson : Json → Except Cause Property
  | .object ⟨ms⟩ => do
    let optional ← readOptional none ms
    let header ← Header.read {} ms
    let tag ← Tag.read none ms
    let members ← readKind tag {} ms
    let kind ← members.kind tag
    return ⟨"", optional, ⟨header.name.getD none, kind, header.origin.getD {}⟩⟩
  | j => (Found.ofJson j).mismatch "struct Property"

/-- Reads the members of a kind; no `Member` may be given twice. -/
def readKind (tag : Tag) (s : Members) : List (String × Json) → Except Cause Members
  | [] => .ok s
  | (k, j) :: ms =>
    match tag.member? k with
    | none => readKind tag s ms
    | some .properties => do
      refuseRepeated k s.properties
      let properties ←
        match j with
        | .object ⟨ps⟩ => readProperties ps
        | j => (Found.ofJson j).mismatch "a map"
      readKind tag { s with properties := some (.ofList properties) } ms
    | some .additional => do
      refuseRepeated k s.additional
      let additional ←
        match j with
        | .null => .ok none
        | j => (Ty.ofJson j).map some
      readKind tag { s with additional := some additional } ms
    | some .items => do
      refuseRepeated k s.items
      let items ← Ty.ofJson j
      readKind tag { s with items := some items } ms
    | some .variants => do
      refuseRepeated k s.variants
      let variants ←
        match j with
        | .array js => readTypes js
        | j => (Found.ofJson j).mismatch "a sequence"
      readKind tag { s with variants := some variants } ms
    | some .members => do
      refuseRepeated k s.members
      let members ← readMembers j
      readKind tag { s with members := some members } ms
    | some .serializable => do
      refuseRepeated k s.serializable
      let serializable ← readBool (.ofJson j)
      readKind tag { s with serializable := some serializable } ms
    | some .target => do
      refuseRepeated k s.target
      let target ← readString (.ofJson j)
      readKind tag { s with target := some target } ms

def readProperties : List (String × Json) → Except Cause (List (String × Property))
  | [] => .ok []
  | (k, j) :: ms => do
    let p ← propertyOfJson j
    let ps ← readProperties ms
    return (k, p) :: ps

def readTypes : List Json → Except Cause (List Ty)
  | [] => .ok []
  | j :: js => do
    let t ← Ty.ofJson j
    let ts ← readTypes js
    return t :: ts

end

end Interchange.Schema
