import Interchange.Failure
import Interchange.Instance.Default
import Interchange.Plan.Matching
import Interchange.Value.Merge

/-! # Reading values into instances

Reading stops at the first fault: nothing behind it is looked at. A run over an instance leaves the
instance as far as it has come, together with the fault that ended it (`Outcome`). `Table.convert`
reads a value as new data, `Table.populateObject` reads a dictionary into an object that may hold
something already.
-/

namespace Interchange

open Plan

/-- What a run over a state leaves, and the `Fault` that ended it. -/
abbrev Outcome (σ : Type) := σ × Option Fault

/-- Goes on with a run that has met no fault. -/
def Outcome.andThen {σ : Type} (r : Outcome σ) (next : σ → Outcome σ) : Outcome σ :=
  match r.2 with
  | some _ => r
  | none => next r.1

/-- Ends a run that cannot fail. -/
def Outcome.done {σ : Type} (s : σ) : Outcome σ := (s, none)

/-- The state of a run without fault; what a run with one leaves is dropped. -/
def Outcome.toExcept {σ : Type} (r : Outcome σ) : Except Fault σ :=
  match r.2 with
  | some f => .error f
  | none => .ok r.1

namespace Populate

/-- Refuses a value as `Fault.mismatch`. -/
def mismatch {α : Type} (key : Option String) (expected : String) (v : Value) : Except Fault α :=
  .error (.mismatch key expected v.kind)

def orMismatch {α : Type} (key : Option String) (expected : String) (v : Value) :
    Option α → Except Fault α
  | some a => .ok a
  | none => mismatch key expected v

/-- The integer that a double is, if it is one of 64 bits. The bound itself counts as the largest.
-/
def integral? (d : Double) : Option Int64 :=
  match d.toInt? with
  | some n =>
    if -0x8000000000000000 ≤ n ∧ n ≤ 0x8000000000000000 then
      some (.ofInt (min n 0x7fffffffffffffff))
    else none
  | none => none

/-- Integers of 64 bits come as integers or as doubles (`integral?`). -/
def int64? : Value → Option Int64
  | .int n => some (.ofInt n.toInt)
  | .double d => integral? d
  | _ => none

def emptyDict? : Value → Option Unit
  | .dict d => if d.isEmpty then some () else none
  | _ => none

def enumValue (e : EnumPlan) (key : Option String) (v : Value) : Except Fault EnumValue :=
  match v with
  | .string s =>
    let m := e.ofName s
    if m.isNone then .error (.unknownMember key e s) else .ok m
  | v => mismatch key "string" v

/-- Members up to the first value that `enumValue` refuses. -/
def enumItems (e : EnumPlan) (key : Option String) (i : Nat) : List Value → Outcome (List Data)
  | [] => .done []
  | v :: vs =>
    match enumValue e none v with
    | .error f => ([], some (.member key i f))
    | .ok m =>
      let rest := enumItems e key (i + 1) vs
      (.enumeration m :: rest.1, rest.2)

/-- A list of members, as far as `enumItems` can read it. -/
def enumList (e : EnumPlan) (key : Option String) (v : Value) : Outcome (List Data) :=
  match v with
  | .list vs => enumItems e key 0 vs
  | v => ([], some (.mismatch key "list" v.kind))

/-- Properties that are not read as a whole: of a list of enumeration members the first ones are
kept even if a later one is refused, and an optional function takes any value. -/
def direct? (t : Table) (p : PropertyPlan) (v : Value) (out : Object) : Option (Outcome Object) :=
  match t.shape p.plan with
  | .array items =>
    (t.enum? items).map fun e =>
      let read := enumList e (some p.name) v
      (out.put p.name (some (.array read.1)), read.2)
  | .function false =>
    if p.optional then some (.done (out.put p.name (some (.function (.dict ∅))))) else none
  | _ => none

/-- What is left in the slot of a property whose value was refused. -/
def refuse (t : Table) (p : PropertyPlan) (out : Object) : Object :=
  match t.shape p.plan with
  | .enumeration _ => out.put p.name (some (.enumeration .none))
  | .array _ | .object _ | .choices _ => out.reserve p.name
  | _ => if p.optional then out.put p.name none else out.reserve p.name

/-- Enters a typed extra property; extras of another sort are dropped. -/
def putTyped (out : Object) (key : String) (d : Data) : Object :=
  { out with extras := .typed ((out.extras.typed?.getD ∅).insert key d) }

/-- Merges a dictionary into untyped extra properties, by `Value.merge`. -/
def mergeAny (out : Object) (d : Dict Value) : Object :=
  { out with extras := .any (Value.merge (out.extras.any?.getD ∅) d) }

/-- Optional enumerations lose their member before anything is read. -/
def resetEnums (t : Table) (ps : List PropertyPlan) (out : Object) : Object :=
  ps.foldl (fun out p =>
    if p.optional && t.isEnum p.plan then out.put p.name (some (.enumeration .none)) else out) out

end Populate

namespace Table

open Populate

mutual

/-- Reads a value as data of a plan. -/
def convert (t : Table) (p : Plan) (key : Option String) (v : Value) : Except Fault Data :=
  match _ : t.shape p with
  | .boolean => (orMismatch key "boolean" v v.bool?).map .boolean
  | .integer => (orMismatch key "integer" v v.int?).map .integer
  | .int64 => (orMismatch key "integer" v (int64? v)).map .int64
  | .double => (orMismatch key "double" v v.double?).map .double
  | .string | .function true => (orMismatch key "string" v v.string?).map .string
  | .binary => (orMismatch key "binary" v v.binary?).map .binary
  | .any => .ok (.any v)
  | .function false =>
    (orMismatch key "empty dictionary" v (emptyDict? v)).map fun _ => .function (.dict ∅)
  | .enumeration e => (enumValue e key v).map .enumeration
  | .array items =>
    match t.enum? items with
    | some e => (enumList e key v).toExcept.map .array
    | none =>
      match v with
      | .list vs => (t.convertItems items key 0 vs).map .array
      | v => mismatch key "list" v
  | .object o =>
    match v with
    | .dict d => (t.populateObject o d (t.newObject o)).toExcept.map .object
    | v => mismatch key "dictionary" v
  | .choices c => (t.convertChoice c key v).map .choice
termination_by (sizeOf v, t.variantHeight p, sizeOf p)
decreasing_by
  · exact .left _ _ (by simp)
  · exact .left _ _ (by simp)
  · exact .right _ (t.choices_lex ‹_›)

def convertItems (t : Table) (items : Plan) (key : Option String) (i : Nat) (vs : List Value) :
    Except Fault (List Data) :=
  match vs with
  | [] => .ok []
  | v :: vs =>
    match t.convert items none v with
    | .error f => .error (.element key i f)
    | .ok d => (t.convertItems items key (i + 1) vs).map (d :: ·)
termination_by (sizeOf vs, 0, 0)
decreasing_by
  · exact .left _ _ (by simp only [List.cons.sizeOf_spec]; omega)
  · exact .left _ _ (by simp only [List.cons.sizeOf_spec]; omega)

/-- Reads a value as the first variant that suits it, the one that `pick` finds. -/
def convertChoice (t : Table) (c : ChoicesPlan) (key : Option String) (v : Value) :
    Except Fault Choice :=
  match _ : t.pick v 0 c.variants with
  | none => .error (.noVariant key (c.variants.map (·.label)) v.kind)
  | some (i, w) =>
    (t.convert w.plan (some w.label) v).map fun d => ⟨(t.newChoice c).slots.set i (some d)⟩
termination_by (sizeOf v, t.variantHeight (.inline (.choices c)), sizeOf c)
decreasing_by exact .right _ (t.variant_lex (mem_of_pick ‹_›))

/-- Reads a dictionary into an object: optional enumerations are reset (`resetEnums`), the declared
properties are read in order, and the extra ones last. -/
def populateObject (t : Table) (o : ObjectPlan) (d : Dict Value) (out : Object) : Outcome Object :=
  (t.populateProperties o.properties d (resetEnums t o.properties out)).andThen fun out =>
    match o.additional with
    | none => .done out
    | some p =>
      match t.shape p with
      | .any => .done (mergeAny out d)
      | _ => t.populateExtras p d.entries out
termination_by (sizeOf d, 1, 0)
decreasing_by
  · exact .right _ (.left _ _ (by omega))
  · exact .left _ _ (by cases d; simp)

def populateProperties (t : Table) (ps : List PropertyPlan) (d : Dict Value) (out : Object) :
    Outcome Object :=
  match ps with
  | [] => .done out
  | p :: ps =>
    (t.populateProperty p (d.get? p.name) out).andThen fun out => t.populateProperties ps d out
termination_by (sizeOf d, 0, sizeOf ps)
decreasing_by
  · exact .left _ _ (d.sizeOf_get?_lt p.name)
  · exact .right _ (.right _ (by simp only [List.cons.sizeOf_spec]; omega))

/-- Reads one property; there may be no value for it. -/
def populateProperty (t : Table) (p : PropertyPlan) (v : Option Value) (out : Object) :
    Outcome Object :=
  match v with
  | none =>
    if p.optional then .done (out.put p.name (t.absentSlot p.plan))
    else (out, some (.missing p.name))
  | some v =>
    match direct? t p v out with
    | some r => r
    | none =>
      match t.convert p.plan (some p.name) v with
      | .ok d => .done (out.put p.name (some d))
      | .error f => (refuse t p out, some f)
termination_by (sizeOf v, 0, 0)
decreasing_by exact .left _ _ (by simp)

/-- Reads every entry of a dictionary by `putTyped`, those of declared names too. -/
def populateExtras (t : Table) (p : Plan) (es : List (String × Value)) (out : Object) :
    Outcome Object :=
  match es with
  | [] => .done out
  | (key, v) :: es =>
    match t.convert p (some key) v with
    | .error f => (out, some f)
    | .ok d => t.populateExtras p es (putTyped out key d)
termination_by (sizeOf es, 0, 0)
decreasing_by
  · exact .left _ _ (by simp only [List.cons.sizeOf_spec, Prod.mk.sizeOf_spec]; omega)
  · exact .left _ _ (by simp only [List.cons.sizeOf_spec]; omega)

end

/-- Reads a value by `convertChoice` into a choice, which loses its content first. -/
def populateChoice (t : Table) (c : ChoicesPlan) (key : Option String) (v : Value) : Outcome Choice :=
  match t.convertChoice c key v with
  | .ok choice => .done choice
  | .error f => (t.newChoice c, some f)

end Table

end Interchange
