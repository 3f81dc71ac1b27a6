import Interchange.Instance.Populate

/-! # Reading manifests

A manifest is a dictionary whose faults are reported with the keys that lead to them
(`ManifestFault`). Objects in a manifest are entered key by key (`parseProperties`). Lists and
choices are read as a whole, as `Table.convert` reads them.
-/

namespace Interchange

open Plan

/-- A fault in a manifest, with the keys that lead to it, innermost first. -/
structure ManifestFault where
  message : String
  keys : List String
  deriving Repr, DecidableEq

namespace ManifestFault

def required (key : String) : ManifestFault := ⟨"Manifest key is required.", [key]⟩

def invalidType (key expected : String) (v : Value) : ManifestFault :=
  ⟨"Type is invalid. Expected " ++ expected ++ ", found " ++ v.kind.name ++ ".", [key]⟩

def invalidMember (key name : String) : ManifestFault :=
  ⟨"Specified value '" ++ name ++ "' is invalid.", [key]⟩

def ofFault (key : String) (f : Fault) : ManifestFault := ⟨f.message, [key]⟩

/-- The fault as seen from outside, where it is under a key. -/
def under (f : ManifestFault) (key : String) : ManifestFault := { f with keys := f.keys ++ [key] }

end ManifestFault

/-- What has been reported on manifests, with the keys innermost first; each `record` adds the keys
of one fault. -/
structure ManifestErrors where
  message : String := ""
  keys : List String := []
  deriving Repr, DecidableEq

namespace ManifestErrors

def isEmpty (e : ManifestErrors) : Bool := e.message.isEmpty

/-- The keys from the root to the fault, which `keys` holds in the other order. -/
def path (e : ManifestErrors) : List String := e.keys.reverse

def record (e : ManifestErrors) (f : ManifestFault) : ManifestErrors := ⟨f.message, e.keys ++ f.keys⟩

def render (e : ManifestErrors) : String :=
  "Error at key '" ++ ".".intercalate e.path ++ "'. " ++ e.message

end ManifestErrors

namespace Table

/-- What a manifest must hold for a shape that is read as it stands, by its `manifestKind?`. -/
def manifestWord (s : Shape) : String :=
  match s.manifestKind? with
  | some k => k.name
  | none => s.expectedName

mutual

/-- Reads the value of a property: an object by `parseProperties`, anything else as `convert` does,
apart from what is reported. -/
def parseValue (t : Table) (p : PropertyPlan) (v : Value) : Except ManifestFault Data :=
  match t.shape p.plan with
  | .enumeration e =>
    match v with
    | .string s => if (e.ofName s).isNone then .error (.invalidMember p.name s) else .ok (.enumeration (e.ofName s))
    | v => .error (.invalidType p.name "string" v)
  | .object o =>
    match v with
    | .dict d =>
      match t.parseProperties o.properties d (t.newObject o) with
      | (_, some f) => .error (f.under p.name)
      | (child, none) => .ok (.object child)
    | v => .error (.invalidType p.name "dictionary" v)
  | .choices c => ((t.convertChoice c none v).map .choice).mapError (.ofFault p.name)
  | .array _ =>
    match v with
    | .list vs => (t.convert p.plan none (.list vs)).mapError (.ofFault p.name)
    | v => .error (.invalidType p.name "list" v)
  | s => (t.convert p.plan none v).mapError fun _ => .invalidType p.name (manifestWord s) v
termination_by (sizeOf v, 0)
decreasing_by exact .left _ _ (by simp)

/-- Reads properties in order, up to the first fault. -/
def parseProperties (t : Table) (ps : List PropertyPlan) (d : Dict Value) (out : Object) :
    Object × Option ManifestFault :=
  match ps with
  | [] => (out, none)
  | p :: ps =>
    match _ : d.get? p.name with
    | some v =>
      match t.parseValue p v with
      | .error f => (out, some f)
      | .ok x => t.parseProperties ps d (out.put p.name (some x))
    | none =>
      if p.optional then t.parseProperties ps d (out.put p.name (t.absentSlot p.plan))
      else (out, some (.required p.name))
termination_by (sizeOf d, sizeOf ps)
decreasing_by
  · refine .left _ _ ?_
    have := d.sizeOf_get?_lt p.name
    rw [‹d.get? p.name = some v›] at this
    simp at this
    omega
  · exact .right _ (by simp only [List.cons.sizeOf_spec]; omega)
  · exact .right _ (by simp only [List.cons.sizeOf_spec]; omega)

end

/-- Reads a dictionary into an object; additional properties are not read. -/
def parseObject (t : Table) (o : ObjectPlan) (d : Dict Value) (out : Object) :
    Object × Option ManifestFault :=
  t.parseProperties o.properties d out

/-- Reads the dictionary under a key into an object. -/
def parseObjectAt (t : Table) (o : ObjectPlan) (d : Dict Value) (key : String) (out : Object) :
    Object × Option ManifestFault :=
  match d.get? key with
  | none => (out, some (.required key))
  | some (.dict inner) =>
    let (out, fault) := t.parseObject o inner out
    (out, fault.map (·.under key))
  | some v => (out, some (.invalidType key "dictionary" v))

/-- Reads the value under a key into a choice. -/
def parseChoiceAt (t : Table) (c : ChoicesPlan) (d : Dict Value) (key : String) (out : Choice) :
    Choice × Option ManifestFault :=
  match d.get? key with
  | none => (out, some (.required key))
  | some v =>
    let (out, fault) := t.populateChoice c none v
    (out, fault.map (.ofFault key))

end Table

end Interchange
