import Interchange.Proofs.Depth

/-! # Reading within a budget

The budget limits how deep calls are nested. A run that uses it up has no result.

Reading is written here once more (`Table.convertWithin`), by recursion on the budget and without
regard to whether plans lead back to themselves. Failures are reported where they are met. A budget
beyond the depth of a run always suffices (`reads_within`), and then the run ends like the one
without a budget whose fault is reported in the end.
-/

namespace Interchange

open Plan Populate

/-! ## Reports -/

/-- A failure inside a list, as one of the list; its message, if there is one, goes into the
context. -/
def Failure.wrap (f : Failure) (kind : FailureKind) (context : String → String) : Failure :=
  ⟨kind, f.message.map context⟩

theorem Fault.report_element (c : Convention) (key : Option String) (i : Nat) (f : Fault) :
    Fault.report c (.element key i f) = (f.report c).wrap .invalidElement (inList key i) := by
  cases c <;> rfl

theorem Fault.report_member (c : Convention) (key : Option String) (i : Nat) (f : Fault) :
    Fault.report c (.member key i f) = (f.report c).wrap (f.report c).kind (inList key i) := by
  cases c <;> rfl

/-- A run whose fault is reported in the end by `Fault.report`. -/
def Outcome.report {σ : Type} (c : Convention) (r : Outcome σ) : σ × Option Failure :=
  (r.1, r.2.map (Fault.report c))

/-- Reads a value within a budget; `none` is a budget that is used up. -/
abbrev Reader := Plan → Option String → Value → Option (Except Failure Data)

namespace Reader

section Runs

variable (t : Table) (c : Convention) (read : Reader)

/-- Goes on with a run that has met no failure, as `Outcome.andThen` does. -/
def andThen {σ : Type} (r : Option (σ × Option Failure)) (next : σ → Option (σ × Option Failure)) :
    Option (σ × Option Failure) :=
  r.bind fun
    | (s, none) => next s
    | (s, some f) => some (s, some f)

def toExcept {σ : Type} : σ × Option Failure → Except Failure σ
  | (s, none) => .ok s
  | (_, some f) => .error f

def enumItems (e : EnumPlan) (key : Option String) (i : Nat) : List Value → List Data × Option Failure
  | [] => ([], none)
  | v :: vs =>
    match (enumValue e none v).mapError (Fault.report c) with
    | .error f => ([], some (f.wrap f.kind (Fault.inList key i)))
    | .ok m =>
      let rest := enumItems e key (i + 1) vs
      (.enumeration m :: rest.1, rest.2)

def enumList (e : EnumPlan) (key : Option String) (v : Value) : List Data × Option Failure :=
  match v with
  | .list vs => enumItems c e key 0 vs
  | v => ([], some (Fault.report c (.mismatch key "list" v.kind)))

def direct? (q : PropertyPlan) (v : Value) (out : Object) : Option (Object × Option Failure) :=
  match t.shape q.plan with
  | .array items =>
    (t.enum? items).map fun e =>
      let xs := enumList c e (some q.name) v
      (out.put q.name (some (.array xs.1)), xs.2)
  | .function false =>
    if q.optional then some (out.put q.name (some (.function (.dict ∅))), none) else none
  | _ => none

def items (plan : Plan) (key : Option String) (i : Nat) : List Value → Option (Except Failure (List Data))
  | [] => some (.ok [])
  | v :: vs =>
    (read plan none v).bind fun
      | .error f => some (.error (f.wrap .invalidElement (Fault.inList key i)))
      | .ok x => (items plan key (i + 1) vs).map (·.map (x :: ·))

def property (q : PropertyPlan) (v : Option Value) (out : Object) : Option (Object × Option Failure) :=
  match v with
  | none =>
    if q.optional then some (out.put q.name (t.absentSlot q.plan), none)
    else some (out, some (Fault.report c (.missing q.name)))
  | some v =>
    match direct? t c q v out with
    | some r => some r
    | none =>
      (read q.plan (some q.name) v).map fun
        | .ok x => (out.put q.name (some x), none)
        | .error f => (refuse t q out, some f)

/-- Reads properties in turn, each from a value of its own. -/
def each : List (PropertyPlan × Option Value) → Object → Option (Object × Option Failure)
  | [], out => some (out, none)
  | (q, v) :: rest, out => andThen (property t c read q v out) (each rest)

def extras (plan : Plan) : List (String × Value) → Object → Option (Object × Option Failure)
  | [], out => some (out, none)
  | (key, v) :: es, out =>
    (read plan (some key) v).bind fun
      | .error f => some (out, some f)
      | .ok x => extras plan es (putTyped out key x)

def object (o : ObjectPlan) (d : Dict Value) (out : Object) : Option (Object × Option Failure) :=
  andThen (each t c read (o.properties.map fun q => (q, d.get? q.name)) (resetEnums t o.properties out))
    fun out =>
      match o.additional with
      | none => some (out, none)
      | some a =>
        match t.shape a with
        | .any => some (mergeAny out d, none)
        | _ => extras read a d.entries out

def choice (p : ChoicesPlan) (key : Option String) (v : Value) : Option (Except Failure Choice) :=
  match t.pick v 0 p.variants with
  | none => some (.error (Fault.report c (.noVariant key (p.variants.map (·.label)) v.kind)))
  | some (i, w) =>
    (read w.plan (some w.label) v).map
      (·.map fun x => ⟨(t.newChoice p).slots.set i (some x)⟩)

/-- Reads by `choice` into a choice, which loses its content first. -/
def populateChoice (p : ChoicesPlan) (key : Option String) (v : Value) : Option (Choice × Option Failure) :=
  (choice t c read p key v).map fun
    | .ok x => (x, none)
    | .error f => (t.newChoice p, some f)

def arguments (params : ObjectPlan) (args : List Value) : Option (Except Failure Object) :=
  let total := params.properties.length
  let required := params.properties.countP (!·.optional)
  if required ≤ args.length ∧ args.length ≤ total then
    (each t c read (Table.assign params.properties args) (t.newObject params)).map toExcept
  else some (.error (Fault.report c (.argumentCount total args.length)))

/-- Reads a value whose parts are read by `read`: one layer of `Table.convert`. -/
def value (p : Plan) (key : Option String) (v : Value) : Option (Except Failure Data) :=
  let orMismatch {α : Type} (expected : String) (x : Option α) :=
    (Populate.orMismatch key expected v x).mapError (Fault.report c)
  match t.shape p with
  | .boolean => some ((orMismatch "boolean" v.bool?).map .boolean)
  | .integer => some ((orMismatch "integer" v.int?).map .integer)
  | .int64 => some ((orMismatch "integer" (int64? v)).map .int64)
  | .double => some ((orMismatch "double" v.double?).map .double)
  | .string | .function true => some ((orMismatch "string" v.string?).map .string)
  | .binary => some ((orMismatch "binary" v.binary?).map .binary)
  | .any => some (.ok (.any v))
  | .function false =>
    some ((orMismatch "empty dictionary" (emptyDict? v)).map fun _ => .function (.dict ∅))
  | .enumeration e => some (((enumValue e key v).mapError (Fault.report c)).map .enumeration)
  | .array plan =>
    match t.enum? plan with
    | some e => some ((toExcept (enumList c e key v)).map .array)
    | none =>
      match v with
      | .list vs => (items read plan key 0 vs).map (·.map .array)
      | v => some (.error (Fault.report c (.mismatch key "list" v.kind)))
  | .object o =>
    match v with
    | .dict d => (object t c read o d (t.newObject o)).map fun r => (toExcept r).map .object
    | v => some (.error (Fault.report c (.mismatch key "dictionary" v.kind)))
  | .choices p => (choice t c read p key v).map (·.map .choice)

end Runs

end Reader

/-- Reads a value as data of a plan, with calls nested at most as deep as the number says. -/
def Table.convertWithin (t : Table) (c : Convention) : Nat → Reader
  | 0, _, _, _ => none
  | n + 1, p, key, v => Reader.value t c (t.convertWithin c n) p key v

namespace Reader

variable {t : Table} {c : Convention} {read : Reader} {σ : Type}

/-! ## Runs that end alike -/

theorem toExcept_report (r : Outcome σ) :
    toExcept (r.report c) = r.toExcept.mapError (Fault.report c) := by
  obtain ⟨s, f⟩ := r
  cases f <;> rfl

theorem map_mapError {ε ε' α β : Type} (x : Except ε α) (f : α → β) (g : ε → ε') :
    (x.mapError g).map f = (x.map f).mapError g := by
  cases x <;> rfl

theorem andThen_eq {x : Option (σ × Option Failure)} {r : Outcome σ} (hx : x = some (r.report c))
    {next : σ → Option (σ × Option Failure)} {next' : σ → Outcome σ}
    (h : ∀ s, next s = some ((next' s).report c)) :
    andThen x next = some ((r.andThen next').report c) := by
  obtain ⟨s, f⟩ := r
  subst hx
  cases f with
  | none => exact h s
  | some f => rfl

theorem enumItems_eq (e : EnumPlan) (key : Option String) (i : Nat) (vs : List Value) :
    enumItems c e key i vs = (Populate.enumItems e key i vs).report c := by
  induction vs generalizing i with
  | nil => rfl
  | cons v vs ih =>
    rw [enumItems, Populate.enumItems]
    cases enumValue e none v with
    | error f => simp only [Except.mapError, Outcome.report, Option.map_some, Fault.report_member]
    | ok m => simp only [Except.mapError, ih, Outcome.report]

theorem enumList_eq (e : EnumPlan) (key : Option String) (v : Value) :
    enumList c e key v = (Populate.enumList e key v).report c := by
  cases v with
  | list vs => exact enumItems_eq e key 0 vs
  | null | bool | int | double | string | binary | dict => rfl

theorem direct?_eq (q : PropertyPlan) (v : Value) (out : Object) :
    direct? t c q v out = (Populate.direct? t q v out).map (·.report c) := by
  unfold direct? Populate.direct?
  cases t.shape q.plan with
  | array plan =>
    simp only [enumList_eq, Option.map_map]
    rfl
  | function b =>
    cases b with
    | true => rfl
    | false => cases q.optional <;> rfl
  | boolean | integer | int64 | double | string | binary | any | enumeration | object | choices => rfl

/-- A reader reads a value by a plan as `Table.convert` reads it, up to the report. -/
def Reads (t : Table) (c : Convention) (read : Reader) (p : Plan) (v : Value) : Prop :=
  ∀ key, read p key v = some ((t.convert p key v).mapError (Fault.report c))

theorem items_eq {plan : Plan} {vs : List Value} (h : ∀ v ∈ vs, Reads t c read plan v)
    (key : Option String) (i : Nat) :
    items read plan key i vs = some ((t.convertItems plan key i vs).mapError (Fault.report c)) := by
  induction vs generalizing i with
  | nil =>
    rw [Table.convertItems]
    rfl
  | cons v vs ih =>
    rw [List.forall_mem_cons] at h
    rw [items, h.1 none, Table.convertItems]
    cases t.convert plan none v with
    | error f => simp only [Except.mapError, Option.bind_some, Fault.report_element]
    | ok x =>
      simp only [Except.mapError, Option.bind_some, ih h.2 (i + 1), Option.map_some]
      cases t.convertItems plan key (i + 1) vs <;> rfl

theorem property_eq {q : PropertyPlan} {u : Option Value} (h : ∀ v, u = some v → Reads t c read q.plan v)
    (out : Object) : property t c read q u out = some ((t.populateProperty q u out).report c) := by
  rw [Table.populateProperty.eq_def, property.eq_def]
  cases u with
  | none =>
    simp only
    split <;> rfl
  | some v =>
    simp only [direct?_eq, h v rfl (some q.name)]
    cases Populate.direct? t q v out with
    | some r => rfl
    | none => cases t.convert q.plan (some q.name) v <;> rfl

theorem each_eq {qs : List (PropertyPlan × Option Value)}
    (h : ∀ r ∈ qs, ∀ v, r.2 = some v → Reads t c read r.1.plan v) (out : Object) :
    each t c read qs out = some ((t.populateEach qs out).report c) := by
  induction qs generalizing out with
  | nil => rfl
  | cons r qs ih =>
    rw [List.forall_mem_cons] at h
    exact andThen_eq (property_eq h.1 out) (ih h.2)

theorem extras_eq {plan : Plan} {es : List (String × Value)} (h : ∀ e ∈ es, Reads t c read plan e.2)
    (out : Object) : extras read plan es out = some ((t.populateExtras plan es out).report c) := by
  induction es generalizing out with
  | nil =>
    rw [Table.populateExtras]
    rfl
  | cons e es ih =>
    rw [List.forall_mem_cons] at h
    rw [extras, h.1, Table.populateExtras]
    cases t.convert plan (some e.1) e.2 with
    | error f => rfl
    | ok x => exact ih h.2 _

theorem object_eq {o : ObjectPlan} {d : Dict Value}
    (h : ∀ q v, Plan.Part q (.inline (.object o)) → Value.Part v (.dict d) → Reads t c read q v)
    (out : Object) : object t c read o d out = some ((t.populateObject o d out).report c) := by
  rw [object, Table.populateObject, Table.populateProperties_eq]
  refine andThen_eq (each_eq ?_ _) fun out => ?_
  · intro r hr v hv
    obtain ⟨q, hq, rfl⟩ := List.mem_map.mp hr
    exact h q.plan v (.property hq) (.of_get? hv)
  · cases ha : o.additional with
    | none => rfl
    | some a =>
      have hextras := extras_eq (fun e he => h a e.2 (.additional ha) (.entry he)) out
      simp only
      cases t.shape a with
      | any => rfl
      | _ => exact hextras

theorem choice_eq {p : ChoicesPlan} {v : Value} (h : ∀ w ∈ p.variants, Reads t c read w.plan v)
    (key : Option String) :
    choice t c read p key v = some ((t.convertChoice p key v).mapError (Fault.report c)) := by
  rw [Table.convertChoice]
  split
  · rename_i hp
    simp only [choice, hp]
    rfl
  · rename_i i w hp
    simp only [choice, hp, h w (Table.mem_of_pick hp) (some w.label), Option.map_some]
    cases t.convert w.plan (some w.label) v <;> rfl

theorem populateChoice_eq {p : ChoicesPlan} {v : Value} (h : ∀ w ∈ p.variants, Reads t c read w.plan v)
    (key : Option String) :
    populateChoice t c read p key v = some ((t.populateChoice p key v).report c) := by
  rw [populateChoice, choice_eq h, Table.populateChoice]
  cases t.convertChoice p key v <;> rfl

theorem of_mem_assign {ps : List PropertyPlan} {args : List Value} {r : PropertyPlan × Option Value}
    (h : r ∈ Table.assign ps args) : r.1 ∈ ps ∧ ∀ v, r.2 = some v → v ∈ args := by
  induction ps generalizing args with
  | nil => cases h
  | cons q ps ih =>
    rcases List.mem_cons.mp h with rfl | h
    · refine ⟨List.mem_cons_self, fun v hv => List.mem_of_head? ?_⟩
      cases hu : args.head? with
      | none =>
        rw [hu] at hv
        cases hv
      | some u =>
        rw [hu] at hv
        cases u <;> cases hv <;> rfl
    · obtain ⟨hq, hv⟩ := ih h
      exact ⟨List.mem_cons_of_mem _ hq, fun v hr => List.mem_of_mem_tail (hv v hr)⟩

theorem arguments_eq {params : ObjectPlan} {args : List Value}
    (h : ∀ q ∈ params.properties, ∀ v ∈ args, Reads t c read q.plan v) :
    arguments t c read params args = some ((t.readArguments params args).mapError (Fault.report c)) := by
  unfold arguments
  rw [Table.readArguments_eq]
  simp only
  split
  · rw [each_eq, Table.populateArguments_eq, Option.map_some, toExcept_report]
    intro r hr v hv
    obtain ⟨hq, hargs⟩ := of_mem_assign hr
    exact h r.1 hq v (hargs v hv)
  · rfl

theorem value_eq {p : Plan} {v : Value}
    (hpart : ∀ q u, t.Part q p → Value.Part u v → Reads t c read q u)
    (hvariant : ∀ ch, t.shape p = .choices ch → ∀ w ∈ ch.variants, Reads t c read w.plan v) :
    Reads t c (value t c read) p v := by
  intro key
  rw [Table.convert]
  split <;> rename_i hs <;> simp only [value, hs, map_mapError]
  · rfl
  · rename_i plan
    cases t.enum? plan with
    | some e => simp only [enumList_eq, toExcept_report, map_mapError]
    | none =>
      cases v with
      | list vs =>
        simp only [items_eq fun u hu => hpart plan u (Table.part_item hs) (.item hu), Option.map_some,
          map_mapError]
      | null | bool | int | double | string | binary | dict => rfl
  · rename_i o
    cases v with
    | dict d =>
      have hobject := object_eq (fun q u hq hu => hpart q u (by rwa [Table.Part, hs]) hu) (t.newObject o)
      simp only [hobject, Option.map_some, toExcept_report, map_mapError]
    | null | bool | int | double | string | binary | list => rfl
  · rw [choice_eq (hvariant _ hs), Option.map_some, map_mapError]

end Reader

namespace Table

variable {t : Table} {p : Plan} {v : Value} {n : Nat}

/-- A budget beyond `readingDepth` suffices. -/
theorem reads_within (c : Convention) (h : t.readingDepth p v < n) :
    Reader.Reads t c (t.convertWithin c n) p v := by
  induction n generalizing p v with
  | zero => cases h
  | succ n ih =>
    refine Reader.value_eq (fun q u hq hu => ih ?_) fun ch hs w hw => ih ?_
    · have := readingDepth_lt_of_part hq hu
      omega
    · have := readingDepth_lt_of_variant hs hw v
      omega

theorem object_within (c : Convention) {o : ObjectPlan} {d : Dict Value}
    (h : t.readingDepth (.inline (.object o)) (.dict d) ≤ n) (out : Object) :
    Reader.object t c (t.convertWithin c n) o d out = some ((t.populateObject o d out).report c) := by
  refine Reader.object_eq (fun q u hq hu => reads_within c (Nat.lt_of_lt_of_le ?_ h)) out
  exact readingDepth_lt_of_part (by rwa [Part, shape]) hu

theorem choice_within (c : Convention) {p : ChoicesPlan} (h : t.readingDepth (.inline (.choices p)) v ≤ n)
    (key : Option String) :
    Reader.populateChoice t c (t.convertWithin c n) p key v = some ((t.populateChoice p key v).report c) := by
  refine Reader.populateChoice_eq (fun w hw => reads_within c (Nat.lt_of_lt_of_le ?_ h)) key
  exact readingDepth_lt_of_variant (by rw [shape]) hw v

theorem arguments_within (c : Convention) {params : ObjectPlan} {args : List Value}
    (h : t.readingDepth (.inline (.object params)) (.list args) ≤ n) :
    Reader.arguments t c (t.convertWithin c n) params args =
      some ((t.readArguments params args).mapError (Fault.report c)) := by
  refine Reader.arguments_eq fun q hq u hu => reads_within c (Nat.lt_of_lt_of_le ?_ h)
  exact readingDepth_lt_of_part (part_property (by rw [shape]) hq) (.item hu)

end Table

end Interchange
