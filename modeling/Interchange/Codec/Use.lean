import Interchange.Codec.Basic
import Interchange.Codec.Error
import Interchange.Instance.Arguments
import Interchange.Instance.Clone
import Interchange.Instance.Manifest

/-! # Using a codec

Finding the types, functions and events of a codec (`object`, `choices`, `function`, `event`), and
running their operations. An operation that a type does not offer is refused before anything else is
looked at (`require`).
-/

namespace Interchange

open Plan

/-- An object type of a codec: the entry `id`, whose shape is the object `plan`. -/
structure ObjectType where
  codec : Codec
  id : Nat
  plan : ObjectPlan

/-- A choices type of a codec: the entry `id`, whose shape is the choices `plan`. -/
structure ChoicesType where
  codec : Codec
  id : Nat
  plan : ChoicesPlan

namespace Codec

/-! ## Finding things -/

/-- The operations of an entry. -/
def operationsAt (c : Codec) (id : Nat) : Operations := c.operations.getD id {}

/-- The operations of a declared type. -/
def operations? (c : Codec) (type : String) : Option Operations := (c.types.get? type).map c.operationsAt

def typeId (c : Codec) (name : String) : Except CodecError Nat :=
  match c.types.get? name with
  | some id => .ok id
  | none => .error (.unknown "type" name c.name)

def wrongKind {α : Type} (c : Codec) (name : String) (id : Nat) (expected : String) :
    Except CodecError α :=
  .error (.wrongKind name expected (c.table.kindName (.named id)))

def object (c : Codec) (name : String) : Except CodecError ObjectType := do
  let id ← c.typeId name
  match c.table.shape (.named id) with
  | .object o => .ok ⟨c, id, o⟩
  | _ => c.wrongKind name id "object"

def choices (c : Codec) (name : String) : Except CodecError ChoicesType := do
  let id ← c.typeId name
  match c.table.shape (.named id) with
  | .choices p => .ok ⟨c, id, p⟩
  | _ => c.wrongKind name id "choices"

def enumeration (c : Codec) (name : String) : Except CodecError EnumPlan := do
  let id ← c.typeId name
  match c.table.shape (.named id) with
  | .enumeration e => .ok e
  | _ => c.wrongKind name id "enum"

/-- The type of the manifest's root. -/
def manifestRoot (c : Codec) : Except CodecError ObjectType :=
  let unknown := .error (.unknown "manifest keys" "manifest_keys" c.name)
  match c.manifest with
  | none => unknown
  | some id =>
    match c.table.shape (.named id) with
    | .object o => .ok ⟨c, id, o⟩
    | _ => unknown

def function (c : Codec) (name : String) : Except CodecError FunctionPlan :=
  match c.functions.get? name with
  | some f => .ok f
  | none => .error (.unknown "function" name c.name)

def event (c : Codec) (name : String) : Except CodecError EventPlan :=
  match c.events.get? name with
  | some e => .ok e
  | none => .error (.unknown "event" name c.name)

/-- Refuses an operation that an entry does not offer, as `notGenerated`. -/
def require (c : Codec) (id : Nat) (name : String) (op : Operation) : Except CodecError Unit :=
  if (c.operationsAt id).has op then .ok () else .error (.notGenerated name op.name)

/-- Reports a fault under the convention of the codec (`Fault.report`). -/
def failed (c : Codec) (f : Fault) : CodecError := .failed (f.report c.convention)

/-- What a run leaves, with its fault reported by `failed`. -/
def outcome {σ : Type} (c : Codec) (r : Outcome σ) : σ × Option CodecError := (r.1, r.2.map c.failed)

/-- What a run over a fresh state yields: nothing, where it met a fault. -/
def fresh {σ : Type} (c : Codec) (r : Outcome σ) : Except CodecError σ := r.toExcept.mapError c.failed

end Codec

/-! ## Objects -/

namespace ObjectType

def table (t : ObjectType) : Table := t.codec.table

def name (t : ObjectType) : String := t.plan.name

def operations (t : ObjectType) : Operations := t.codec.operationsAt t.id

def propertyNames (t : ObjectType) : List String := t.plan.properties.map (·.name)

def require (t : ObjectType) (op : Operation) : Except CodecError Unit :=
  t.codec.require t.id t.name op

def new (t : ObjectType) : Object := t.table.newObject t.plan

def clone (t : ObjectType) (x : Object) : Except CodecError Object := do
  t.require .clone
  (t.table.cloneObject t.plan x t.name).mapError .wrongInstance

/-- The dictionary that a value has to be. -/
def dict (t : ObjectType) : Value → Except CodecError (Dict Value)
  | .dict d => .ok d
  | v => .error (t.codec.failed (.mismatch none "dictionary" v.kind))

/-- Reads a dictionary into an object by `Table.populateObject`; the object is left as far as
reading has come. -/
def populateDict (t : ObjectType) (d : Dict Value) (out : Object) : Object × Option CodecError :=
  match t.require .populate with
  | .error e => (out, some e)
  | .ok () => t.codec.outcome (t.table.populateObject t.plan d out)

def populate (t : ObjectType) (v : Value) (out : Object) : Object × Option CodecError :=
  match t.require .populate with
  | .error e => (out, some e)
  | .ok () =>
    match t.dict v with
    | .error e => (out, some e)
    | .ok d => t.codec.outcome (t.table.populateObject t.plan d out)

def ofDict (t : ObjectType) (d : Dict Value) : Except CodecError Object := do
  t.require .fromValue
  t.codec.fresh (t.table.populateObject t.plan d t.new)

def ofValue (t : ObjectType) (v : Value) : Except CodecError Object := do
  t.require .fromValue
  let d ← t.dict v
  t.codec.fresh (t.table.populateObject t.plan d t.new)

def toDict (t : ObjectType) (x : Object) : Except CodecError (Dict Value) := do
  t.require .toValue
  (t.table.serializeObject t.plan x t.name).mapError .wrongInstance

def toValue (t : ObjectType) (x : Object) : Except CodecError Value := (t.toDict x).map .dict

/-- Reads a manifest as a whole, into a new object. -/
def parse (t : ObjectType) (d : Dict Value) : Except ManifestFault Object :=
  match t.table.parseObject t.plan d t.new with
  | (x, none) => .ok x
  | (_, some f) => .error f

/-- Reads the dictionary under a key of a manifest into an object; a fault goes into `errors`. -/
def parseAt (t : ObjectType) (d : Dict Value) (key : String) (out : Object) (errors : ManifestErrors) :
    Except CodecError (Bool × Object × ManifestErrors) := do
  t.require .parse
  match t.table.parseObjectAt t.plan d key out with
  | (out, none) => return (true, out, errors)
  | (out, some f) => return (false, out, errors.record f)

end ObjectType

/-! ## Choices -/

namespace ChoicesType

def table (t : ChoicesType) : Table := t.codec.table

def name (t : ChoicesType) : String := t.plan.name

def operations (t : ChoicesType) : Operations := t.codec.operationsAt t.id

def labels (t : ChoicesType) : List String := t.plan.variants.map (·.label)

/-- The position of the first variant with a label. -/
def index? (t : ChoicesType) (label : String) : Option Nat := t.labels.findIdx? (· == label)

def require (t : ChoicesType) (op : Operation) : Except CodecError Unit :=
  t.codec.require t.id t.name op

def new (t : ChoicesType) : Choice := t.table.newChoice t.plan

def clone (t : ChoicesType) (x : Choice) : Except CodecError Choice := do
  t.require .clone
  (t.table.cloneChoice t.plan x t.name).mapError .wrongInstance

/-- Reads a value into a choice by `Table.populateChoice`; the choice loses its content first. -/
def populate (t : ChoicesType) (v : Value) (out : Choice) : Choice × Option CodecError :=
  match t.require .populate with
  | .error e => (out, some e)
  | .ok () => t.codec.outcome (t.table.populateChoice t.plan none v)

def ofValue (t : ChoicesType) (v : Value) : Except CodecError Choice := do
  t.require .fromValue
  t.codec.fresh (t.table.populateChoice t.plan none v)

def toValue (t : ChoicesType) (x : Choice) : Except CodecError Value := do
  t.require .toValue
  (t.table.serializeChoice t.plan x t.name).mapError .wrongInstance

/-- Reads the value under a key of a manifest into a choice; a fault goes into `errors`. -/
def parseAt (t : ChoicesType) (d : Dict Value) (key : String) (out : Choice) (errors : ManifestErrors) :
    Except CodecError (Bool × Choice × ManifestErrors) := do
  t.require .parse
  match t.table.parseChoiceAt t.plan d key out with
  | (out, none) => return (true, out, errors)
  | (out, some f) => return (false, out, errors.record f)

end ChoicesType

/-! ## Functions and events -/

namespace Codec

/-- Reads the arguments of a call, by `Table.readArguments`. -/
def readParams (c : Codec) (f : FunctionPlan) (args : List Value) : Except CodecError Object :=
  (c.table.readArguments f.params args).mapError c.failed

/-- The parameters of a function's callback. -/
def resultsPlan (f : FunctionPlan) : Except CodecError ObjectPlan :=
  match f.results with
  | some o => .ok o
  | none => .error (.notGenerated f.name "Results::Create")

def newResults (c : Codec) (f : FunctionPlan) : Except CodecError Object :=
  (resultsPlan f).map c.table.newObject

def writeResults (c : Codec) (f : FunctionPlan) (x : Object) : Except CodecError (List Value) := do
  let o ← resultsPlan f
  (c.table.writeArguments o x).mapError .wrongInstance

def newEvent (c : Codec) (e : EventPlan) : Object := c.table.newObject e.params

def writeEvent (c : Codec) (e : EventPlan) (x : Object) : Except CodecError (List Value) :=
  (c.table.writeArguments e.params x).mapError .wrongInstance

end Codec

end Interchange
