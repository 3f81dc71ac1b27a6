import Interchange.Proofs.Population
import Interchange.Proofs.Reporting

/-! # Faults in manifests

A manifest that cannot be read has one first bad property, at some depth (`FaultAt`): the keys of
its fault lead there from the root, through properties whose values are dictionaries, past
properties that are accepted (`dictParsed`). On the way out the message is written down once, and
then one key for each level (`noteObject_eq`).
-/

namespace Interchange

open Plan

/-! ## Notes -/

/-- What is written down while a manifest is read: a message, or a key on the way to it. -/
inductive ManifestErrors.Note
  | message (text : String)
  | key (name : String)
  deriving DecidableEq

namespace ManifestErrors

/-- Writes a note down. A message is only taken where there is none yet. -/
def take? (e : ManifestErrors) : Note → Option ManifestErrors
  | .message text => if e.message = "" then some { e with message := text } else none
  | .key name => some { e with keys := e.keys ++ [name] }

def takeAll? (e : ManifestErrors) (notes : List Note) : Option ManifestErrors := notes.foldlM take? e

/-- The report as `render` gives it, for which there has to be a message and a key. -/
def report? (e : ManifestErrors) : Option String :=
  if e.message ≠ "" ∧ e.keys ≠ [] then some e.render else none

theorem takeAll?_keys (e : ManifestErrors) (keys : List String) :
    e.takeAll? (keys.map .key) = some { e with keys := e.keys ++ keys } := by
  induction keys generalizing e with
  | nil =>
    rw [List.append_nil]
    rfl
  | cons key keys ih =>
    refine (ih { e with keys := e.keys ++ [key] }).trans ?_
    rw [List.append_assoc, List.singleton_append]

end ManifestErrors

namespace ManifestFault

/-- The notes on a fault: its message once, and its keys from the inside out. -/
def notes (f : ManifestFault) : List ManifestErrors.Note :=
  .message f.message :: f.keys.map .key

theorem notes_under (f : ManifestFault) (key : String) :
    (f.under key).notes = f.notes ++ [.key key] := by
  simp [notes, under]

/-- Written down where nothing has been reported, the notes on a fault make the same report as
`record`. -/
theorem takeAll?_notes (f : ManifestFault) :
    ManifestErrors.takeAll? {} f.notes = some (ManifestErrors.record {} f) :=
  ManifestErrors.takeAll?_keys { message := f.message } f.keys

theorem required_message_ne (key : String) : (required key).message ≠ "" := by
  change "Manifest key is required." ≠ ""
  decide

theorem invalidType_message_ne (key expected : String) (v : Value) :
    (invalidType key expected v).message ≠ "" :=
  append_ne_empty (append_ne_empty (append_ne_empty (append_ne_empty (by decide) _) _) _) _

theorem invalidMember_message_ne (key name : String) : (invalidMember key name).message ≠ "" :=
  append_ne_empty (append_ne_empty (by decide) _) _

end ManifestFault

namespace Table

variable {t : Table} {p : Plan} {q : PropertyPlan} {o o' : ObjectPlan} {v : Value} {d inner : Dict Value}
  {out : Object} {path : List String}

/-! ## What is accepted -/

/-- A manifest may hold the value. Whatever is no object is read as a whole by `read?`; an object
has to be given by a dictionary with a value for each property that is not optional, and with values
that are accepted. -/
inductive Takes (t : Table) : Plan → Value → Prop
  | whole {p : Plan} {v : Value} (hs : ∀ o, t.shape p ≠ .object o) (h : (t.read? p v).isSome = true) :
      Takes t p v
  | object {p : Plan} {o : ObjectPlan} {d : Dict Value} (hs : t.shape p = .object o)
      (given : ∀ q ∈ o.properties, ∀ v, d.get? q.name = some v → Takes t q.plan v)
      (absent : ∀ q ∈ o.properties, d.get? q.name = none → q.optional = true) : Takes t p (.dict d)

/-- The value of a property is accepted by `Takes`, or there need not be one. -/
def TakesSlot (t : Table) (q : PropertyPlan) : Option Value → Prop
  | some v => t.Takes q.plan v
  | none => q.optional = true

/-- A dictionary holds what an object needs, by `TakesSlot` for each property. -/
def TakesDict (t : Table) (o : ObjectPlan) (d : Dict Value) : Prop :=
  ∀ q ∈ o.properties, t.TakesSlot q (d.get? q.name)

theorem takes_whole_iff (hs : ∀ o, t.shape p ≠ .object o) : t.Takes p v ↔ (t.read? p v).isSome = true := by
  refine ⟨fun h => ?_, .whole hs⟩
  cases h with
  | whole _ h => exact h
  | object hs' => exact absurd hs' (hs _)

theorem takes_dict_iff (hs : t.shape p = .object o) : t.Takes p (.dict d) ↔ t.TakesDict o d := by
  constructor
  · intro h q hq
    cases h with
    | whole hs' => exact absurd hs (hs' o)
    | object hs' given absent =>
      rw [hs] at hs'
      cases hs'
      cases hv : d.get? q.name with
      | none => exact absent q hq hv
      | some v => exact given q hq v hv
  · intro h
    refine .object hs (fun q hq v hv => ?_) (fun q hq hv => ?_)
    · have hslot := h q hq
      rwa [hv] at hslot
    · have hslot := h q hq
      rwa [hv] at hslot

theorem not_takes_of_not_dict (hs : t.shape p = .object o) (hv : ∀ d, v ≠ .dict d) : ¬ t.Takes p v := by
  intro h
  cases h with
  | whole hs' => exact hs' o hs
  | object => exact hv _ rfl

/-! ## Where reading stops -/

/-- The keys that lead to the first property that is not accepted. Where that property is an object
and its value is a dictionary, they go on inside. -/
inductive FaultAt (t : Table) : ObjectPlan → Dict Value → List String → Prop
  | here {o : ObjectPlan} {d : Dict Value} {before after : List PropertyPlan} {q : PropertyPlan}
      (split : o.properties = before ++ q :: after)
      (accepted : ∀ q' ∈ before, t.TakesSlot q' (d.get? q'.name))
      (refused : ¬ t.TakesSlot q (d.get? q.name))
      (last : ∀ o' inner, t.shape q.plan = .object o' → d.get? q.name ≠ some (.dict inner)) :
      FaultAt t o d [q.name]
  | under {o o' : ObjectPlan} {d inner : Dict Value} {before after : List PropertyPlan}
      {q : PropertyPlan} {path : List String} (split : o.properties = before ++ q :: after)
      (accepted : ∀ q' ∈ before, t.TakesSlot q' (d.get? q'.name))
      (hs : t.shape q.plan = .object o') (hd : d.get? q.name = some (.dict inner))
      (h : FaultAt t o' inner path) : FaultAt t o d (q.name :: path)

/-- A fault is at a property that is not accepted by `TakesSlot`, and those before it are. -/
theorem FaultAt.exists_refused (h : t.FaultAt o d path) :
    ∃ before q after rest, o.properties = before ++ q :: after ∧ path = q.name :: rest ∧
      (∀ q' ∈ before, t.TakesSlot q' (d.get? q'.name)) ∧ ¬ t.TakesSlot q (d.get? q.name) := by
  induction h with
  | here split accepted refused => exact ⟨_, _, _, [], split, rfl, accepted, refused⟩
  | under split accepted hs hd _ ih =>
    refine ⟨_, _, _, _, split, rfl, accepted, fun htakes => ?_⟩
    obtain ⟨before, q', after, -, split', -, -, refused⟩ := ih
    rw [hd] at htakes
    apply refused
    apply (takes_dict_iff hs).mp htakes
    rw [split']
    exact List.mem_append_right _ List.mem_cons_self

theorem FaultAt.not_takesDict (h : t.FaultAt o d path) : ¬ t.TakesDict o d := by
  obtain ⟨before, q, after, -, split, -, -, refused⟩ := h.exists_refused
  intro htakes
  apply refused
  apply htakes
  rw [split]
  exact List.mem_append_right _ List.mem_cons_self

theorem eq_of_first_refused {P : PropertyPlan → Prop} {before before' after after' : List PropertyPlan}
    {q q' : PropertyPlan} (h : before ++ q :: after = before' ++ q' :: after') (hb : ∀ x ∈ before, P x)
    (hq : ¬ P q) (hb' : ∀ x ∈ before', P x) (hq' : ¬ P q') : q = q' := by
  induction before generalizing before' with
  | nil =>
    cases before' with
    | nil => exact (List.cons.inj h).1
    | cons x _ =>
      rw [(List.cons.inj h).1] at hq
      exact absurd (hb' x List.mem_cons_self) hq
  | cons x before ih =>
    rw [List.forall_mem_cons] at hb
    cases before' with
    | nil =>
      rw [← (List.cons.inj h).1] at hq'
      exact absurd hb.1 hq'
    | cons x' before' =>
      rw [List.forall_mem_cons] at hb'
      exact ih (List.cons.inj h).2 hb.2 hb'.2

/-- The keys that lead to the fault are determined. -/
theorem FaultAt.unique {path' : List String} (h : t.FaultAt o d path) (h' : t.FaultAt o d path') :
    path = path' := by
  induction h generalizing path' with
  | here split accepted refused last =>
    cases h' with
    | here split' accepted' refused' =>
      rw [eq_of_first_refused (split.symm.trans split') accepted refused accepted' refused']
    | under split' accepted' hs hd h' =>
      have refused' := mt (takes_dict_iff hs).mp h'.not_takesDict
      obtain rfl := eq_of_first_refused (split.symm.trans split') accepted refused accepted' (by rwa [hd])
      exact absurd hd (last _ _ hs)
  | under split accepted hs hd h ih =>
    have refused := mt (takes_dict_iff hs).mp h.not_takesDict
    cases h' with
    | here split' accepted' refused' last =>
      obtain rfl := eq_of_first_refused (split.symm.trans split') accepted (by rwa [hd]) accepted' refused'
      exact absurd hd (last _ _ hs)
    | under split' accepted' hs' hd' h' =>
      have refused' := mt (takes_dict_iff hs').mp h'.not_takesDict
      obtain rfl := eq_of_first_refused (split.symm.trans split') accepted (by rwa [hd]) accepted'
        (by rwa [hd'])
      cases hs.symm.trans hs'
      cases hd.symm.trans hd'
      rw [ih h']

/-- Behind properties that are accepted, `FaultAt` is where it is among those that follow. -/
theorem FaultAt.prepend {name : String} {ps : List PropertyPlan} {additional : Option Plan}
    (hq : t.TakesSlot q (d.get? q.name)) (h : t.FaultAt ⟨name, ps, additional⟩ d path) :
    t.FaultAt ⟨name, q :: ps, additional⟩ d path := by
  cases h with
  | here split accepted refused last =>
    exact .here (congrArg (q :: ·) split) (List.forall_mem_cons.mpr ⟨hq, accepted⟩) refused last
  | under split accepted hs hd h =>
    exact .under (congrArg (q :: ·) split) (List.forall_mem_cons.mpr ⟨hq, accepted⟩) hs hd h

/-- The result of reading the value of a property by `parseValue`: the value is accepted, or refused
as a whole, or there is a fault inside. -/
inductive ValueParsed (t : Table) (q : PropertyPlan) (v : Value) : Except ManifestFault Data → Prop
  | accepted {x : Data} (h : t.Takes q.plan v) : ValueParsed t q v (.ok x)
  | refused {message : String} (hm : message ≠ "") (h : ¬ t.Takes q.plan v)
      (last : ∀ o inner, t.shape q.plan = .object o → v ≠ .dict inner) :
      ValueParsed t q v (.error ⟨message, [q.name]⟩)
  | inside {o : ObjectPlan} {inner : Dict Value} {f : ManifestFault} (hs : t.shape q.plan = .object o)
      (hv : v = .dict inner) (hm : f.message ≠ "") (h : t.FaultAt o inner f.keys.reverse) :
      ValueParsed t q v (.error (f.under q.name))

/-- The fault that `parseProperties` leaves when the properties of an object have been read. -/
inductive DictParsed (t : Table) (o : ObjectPlan) (d : Dict Value) : Option ManifestFault → Prop
  | accepted (h : t.TakesDict o d) : DictParsed t o d none
  | faulty {f : ManifestFault} (hm : f.message ≠ "") (h : t.FaultAt o d f.keys.reverse) :
      DictParsed t o d (some f)

theorem DictParsed.prepend {name : String} {ps : List PropertyPlan} {additional : Option Plan}
    {fault : Option ManifestFault} (hq : t.TakesSlot q (d.get? q.name))
    (h : t.DictParsed ⟨name, ps, additional⟩ d fault) : t.DictParsed ⟨name, q :: ps, additional⟩ d fault := by
  cases h with
  | accepted h => exact .accepted (List.forall_mem_cons.mpr ⟨hq, h⟩)
  | faulty hm h => exact .faulty hm (h.prepend hq)

/-- Without objects, what `parseValue` takes from a manifest is what the value is read as. -/
theorem toOption_parseValue_whole (hs : ∀ o, t.shape q.plan ≠ .object o) :
    (t.parseValue q v).toOption = t.read? q.plan v := by
  rw [parseValue.eq_def]
  split <;> rename_i hs'
  · rename_i e
    rw [read?_leaf (by rw [hs']; rfl), hs']
    cases v with
    | string s =>
      simp only [ShapeOf.readLeaf?, EnumPlan.member?, Value.string?, Option.bind_some]
      split <;> rfl
    | null | bool | int | double | binary | list | dict => rfl
  · exact absurd hs' (hs _)
  · rw [toOption_mapError, toOption_map, toOption_convertChoice, read?_choices hs']
  · split
    · rw [toOption_mapError, toOption_convert]
    · rename_i hv
      rw [read?_array hs']
      cases v with
      | list vs => exact absurd rfl (hv vs)
      | null | bool | int | double | string | binary | dict => rfl
  · rw [toOption_mapError, toOption_convert]

theorem fault_of_mapError {ε α : Type} {x : Except ε α} {g : ε → ManifestFault} {f : ManifestFault}
    {P : ManifestFault → Prop} (hg : ∀ e, P (g e)) (h : x.mapError g = .error f) : P f := by
  cases x with
  | ok a => cases h
  | error e =>
    cases h
    exact hg e

/-- A value that is refused as a whole is reported under the name of its property. -/
theorem fault_of_parseValue (hlast : ∀ o inner, t.shape q.plan = .object o → v ≠ .dict inner)
    {f : ManifestFault} (h : t.parseValue q v = .error f) : f.message ≠ "" ∧ f.keys = [q.name] := by
  rw [parseValue.eq_def] at h
  split at h <;> rename_i hs
  · split at h
    · split at h
      · cases h
        exact ⟨ManifestFault.invalidMember_message_ne _ _, rfl⟩
      · cases h
    · cases h
      exact ⟨ManifestFault.invalidType_message_ne _ _ _, rfl⟩
  · split at h
    · exact absurd rfl (hlast _ _ hs)
    · cases h
      exact ⟨ManifestFault.invalidType_message_ne _ _ _, rfl⟩
  · refine fault_of_mapError (P := fun f => f.message ≠ "" ∧ f.keys = [q.name]) (fun e => ?_) h
    exact ⟨e.message_ne_empty, rfl⟩
  · split at h
    · refine fault_of_mapError (P := fun f => f.message ≠ "" ∧ f.keys = [q.name]) (fun e => ?_) h
      exact ⟨e.message_ne_empty, rfl⟩
    · cases h
      exact ⟨ManifestFault.invalidType_message_ne _ _ _, rfl⟩
  · refine fault_of_mapError (P := fun f => f.message ≠ "" ∧ f.keys = [q.name]) (fun e => ?_) h
    exact ⟨ManifestFault.invalidType_message_ne _ _ _, rfl⟩

/-- What a property holds after `parseProperties` has read the dictionary of its object. -/
def underKey (q : PropertyPlan) : Object × Option ManifestFault → Except ManifestFault Data
  | (_, some f) => .error (f.under q.name)
  | (child, none) => .ok (.object child)

theorem parseValue_dict (hs : t.shape q.plan = .object o) (d : Dict Value) :
    t.parseValue q (.dict d) = underKey q (t.parseProperties o.properties d (t.newObject o)) := by
  rw [parseValue.eq_def, hs]
  rfl

section Steps

variable {ps : List PropertyPlan}

theorem parseProperties_of_ok {x : Data} (hv : d.get? q.name = some v) (hx : t.parseValue q v = .ok x) :
    t.parseProperties (q :: ps) d out = t.parseProperties ps d (out.put q.name (some x)) := by
  rw [parseProperties]
  split <;> rename_i hv' <;> rw [hv] at hv' <;> cases hv'
  rw [hx]

theorem parseProperties_of_error {f : ManifestFault} (hv : d.get? q.name = some v)
    (hf : t.parseValue q v = .error f) : t.parseProperties (q :: ps) d out = (out, some f) := by
  rw [parseProperties]
  split <;> rename_i hv' <;> rw [hv] at hv' <;> cases hv'
  rw [hf]

theorem parseProperties_of_none (hv : d.get? q.name = none) :
    t.parseProperties (q :: ps) d out =
      if q.optional then t.parseProperties ps d (out.put q.name (t.absentSlot q.plan))
      else (out, some (.required q.name)) := by
  rw [parseProperties]
  split
  · rename_i hv'
    rw [hv] at hv'
    cases hv'
  · rfl

end Steps

/-- One property after the other: all are accepted, or the fault is at the first that is not. The
invariant of `parseProperties`. -/
theorem dictParsed_of_values
    (ih : ∀ q ∈ o.properties, ∀ v, d.get? q.name = some v → t.ValueParsed q v (t.parseValue q v))
    (out : Object) : t.DictParsed o d (t.parseProperties o.properties d out).2 := by
  obtain ⟨name, ps, additional⟩ := o
  induction ps generalizing out with
  | nil =>
    rw [parseProperties]
    exact .accepted (by simp [TakesDict])
  | cons q ps ihps =>
    simp only [List.forall_mem_cons] at ih
    cases hv : d.get? q.name with
    | some v =>
      have hparsed := ih.1 v hv
      cases hx : t.parseValue q v with
      | ok x =>
        rw [hx] at hparsed
        rw [parseProperties_of_ok hv hx]
        cases hparsed with
        | accepted h => exact (ihps _ ih.2).prepend (by rwa [hv])
      | error f =>
        rw [hx] at hparsed
        rw [parseProperties_of_error hv hx]
        cases hparsed with
        | refused hm h last =>
          refine .faulty hm (.here (List.nil_append _).symm (by simp) (by rwa [hv]) fun o inner hs hd => ?_)
          rw [hv] at hd
          cases hd
          exact last o inner hs rfl
        | inside hs hv' hm h =>
          subst hv'
          refine .faulty hm ?_
          rw [ManifestFault.under, List.reverse_append]
          exact .under (List.nil_append _).symm (by simp) hs hv h
    | none =>
      rw [parseProperties_of_none hv]
      split
      · exact (ihps _ ih.2).prepend (by rwa [hv])
      · refine .faulty (ManifestFault.required_message_ne _) ?_
        refine .here (List.nil_append _).symm (by simp) (by rwa [hv]) fun _ _ _ hd => ?_
        rw [hv] at hd
        cases hd

/-- A dictionary is read property by property where an object is wanted. -/
theorem valueParsed_dict (hs : t.shape q.plan = .object o)
    (h : t.DictParsed o inner (t.parseProperties o.properties inner (t.newObject o)).2) :
    t.ValueParsed q (.dict inner) (t.parseValue q (.dict inner)) := by
  rw [parseValue_dict hs]
  generalize t.parseProperties o.properties inner (t.newObject o) = run at h ⊢
  obtain ⟨child, fault⟩ := run
  cases h with
  | accepted h => exact .accepted ((takes_dict_iff hs).mpr h)
  | faulty hm h => exact .inside hs rfl hm h

/-- No other value is an object. -/
theorem valueParsed_not_dict (hs : t.shape q.plan = .object o) (hv : ∀ d, v ≠ .dict d) :
    t.ValueParsed q v (t.parseValue q v) := by
  have hlast (o' : ObjectPlan) (inner : Dict Value) (_ : t.shape q.plan = .object o') : v ≠ .dict inner :=
    hv inner
  obtain ⟨⟨message, keys⟩, hf⟩ : ∃ f, t.parseValue q v = .error f := by
    rw [parseValue.eq_def, hs]
    cases v with
    | dict d => exact absurd rfl (hv d)
    | null | bool | int | double | string | binary | list => exact ⟨_, rfl⟩
  obtain ⟨hm, hk⟩ := fault_of_parseValue hlast hf
  cases hk
  rw [hf]
  exact .refused hm (not_takes_of_not_dict hs hv) hlast

/-- Whatever is no object is accepted if it can be read as a whole. -/
theorem valueParsed_whole (hs : ∀ o, t.shape q.plan ≠ .object o) :
    t.ValueParsed q v (t.parseValue q v) := by
  have hlast (o : ObjectPlan) (inner : Dict Value) (h : t.shape q.plan = .object o) : v ≠ .dict inner :=
    absurd h (hs o)
  have hread := toOption_parseValue_whole (v := v) hs
  cases hv : t.parseValue q v with
  | ok x =>
    rw [hv, toOption_ok] at hread
    exact .accepted (.whole hs (by rw [← hread]; rfl))
  | error f =>
    obtain ⟨message, keys⟩ := f
    obtain ⟨hm, hk⟩ := fault_of_parseValue hlast hv
    cases hk
    rw [hv, toOption_error] at hread
    refine .refused hm (fun h => ?_) hlast
    rw [takes_whole_iff hs, ← hread] at h
    cases h

/-- The induction is on the value: the values of a dictionary are parts of it. Each shape has its
own lemma: `valueParsed_dict`, `valueParsed_not_dict` and `valueParsed_whole`. -/
theorem valueParsed (t : Table) (q : PropertyPlan) (v : Value) : t.ValueParsed q v (t.parseValue q v) := by
  induction v using Value.part_induction generalizing q with
  | step v ih =>
    by_cases ho : ∃ o, t.shape q.plan = .object o
    · obtain ⟨o, hs⟩ := ho
      by_cases hd : ∃ inner, v = .dict inner
      · obtain ⟨inner, rfl⟩ := hd
        apply valueParsed_dict hs
        exact dictParsed_of_values (fun q' _ v' hv' => ih v' (.of_get? hv') q') (t.newObject o)
      · exact valueParsed_not_dict hs fun d hv => hd ⟨d, hv⟩
    · exact valueParsed_whole fun o hs => ho ⟨o, hs⟩

/-- A manifest is accepted, or its fault is at the first property that is not. -/
theorem dictParsed (t : Table) (o : ObjectPlan) (d : Dict Value) (out : Object) :
    t.DictParsed o d (t.parseObject o d out).2 :=
  dictParsed_of_values (fun q _ v _ => t.valueParsed q v) out

/-! ## Runs with notes -/

/-- Notes a message and the key it is about. -/
def failAt (key message : String) (out : Object) (notes : List ManifestErrors.Note) :
    Bool × Object × List ManifestErrors.Note :=
  (false, out, notes ++ [.message message, .key key])

mutual

/-- Reads the value of a property into an object, as `parseValue` does. Every exit with a fault
writes its own notes. -/
def noteValue (t : Table) (p : PropertyPlan) (v : Value) (out : Object)
    (notes : List ManifestErrors.Note) : Bool × Object × List ManifestErrors.Note :=
  match t.shape p.plan with
  | .enumeration e =>
    match v with
    | .string s =>
      if (e.ofName s).isNone then failAt p.name ("Specified value '" ++ s ++ "' is invalid.") out notes
      else (true, out.put p.name (some (.enumeration (e.ofName s))), notes)
    | v => failAt p.name ("Type is invalid. Expected string, found " ++ v.kind.name ++ ".") out notes
  | .object o =>
    match v with
    | .dict d =>
      match t.noteProperties o.properties d (t.newObject o) notes with
      | (false, _, notes) => (false, out, notes ++ [.key p.name])
      | (true, child, notes) => (true, out.put p.name (some (.object child)), notes)
    | v => failAt p.name ("Type is invalid. Expected dictionary, found " ++ v.kind.name ++ ".") out notes
  | .choices c =>
    match t.populateChoice c none v with
    | (x, none) => (true, out.put p.name (some (.choice x)), notes)
    | (_, some f) => failAt p.name f.message out notes
  | .array _ =>
    match v with
    | .list vs =>
      match t.convert p.plan none (.list vs) with
      | .ok x => (true, out.put p.name (some x), notes)
      | .error f => failAt p.name f.message out notes
    | v => failAt p.name ("Type is invalid. Expected list, found " ++ v.kind.name ++ ".") out notes
  | s =>
    match t.convert p.plan none v with
    | .ok x => (true, out.put p.name (some x), notes)
    | .error _ =>
      failAt p.name ("Type is invalid. Expected " ++ manifestWord s ++ ", found " ++ v.kind.name ++ ".")
        out notes
termination_by (sizeOf v, 0)
decreasing_by exact .left _ _ (by simp)

/-- Reads properties in order, and returns at the first fault, as `parseProperties` does. -/
def noteProperties (t : Table) (ps : List PropertyPlan) (d : Dict Value) (out : Object)
    (notes : List ManifestErrors.Note) : Bool × Object × List ManifestErrors.Note :=
  match ps with
  | [] => (true, out, notes)
  | p :: ps =>
    match _ : d.get? p.name with
    | some v =>
      match t.noteValue p v out notes with
      | (false, out, notes) => (false, out, notes)
      | (true, out, notes) => t.noteProperties ps d out notes
    | none =>
      if p.optional then t.noteProperties ps d (out.put p.name (t.absentSlot p.plan)) notes
      else failAt p.name "Manifest key is required." out notes
termination_by (sizeOf d, sizeOf ps)
decreasing_by
  · refine .left _ _ ?_
    have := d.sizeOf_get?_lt p.name
    rw [‹d.get? p.name = some v›] at this
    simp at this
    omega
  · exact .right _ (by simp only [List.cons.sizeOf_spec]; omega)
  · exact .right _ (by simp only [List.cons.sizeOf_spec]; omega)

end

def noteObject (t : Table) (o : ObjectPlan) (d : Dict Value) (out : Object)
    (notes : List ManifestErrors.Note) : Bool × Object × List ManifestErrors.Note :=
  t.noteProperties o.properties d out notes

/-- What is left of a run of `parseProperties`, over an object and over notes. -/
def noted (notes : List ManifestErrors.Note) :
    Object × Option ManifestFault → Bool × Object × List ManifestErrors.Note
  | (out, none) => (true, out, notes)
  | (out, some f) => (false, out, notes ++ f.notes)

def notedValue (q : PropertyPlan) (out : Object) (notes : List ManifestErrors.Note) :
    Except ManifestFault Data → Bool × Object × List ManifestErrors.Note
  | .ok x => (true, out.put q.name (some x), notes)
  | .error f => (false, out, notes ++ f.notes)

theorem noteProperties_eq_of_values {ps : List PropertyPlan}
    (ih : ∀ q v out notes, d.get? q.name = some v →
      t.noteValue q v out notes = notedValue q out notes (t.parseValue q v))
    (out : Object) (notes : List ManifestErrors.Note) :
    t.noteProperties ps d out notes = noted notes (t.parseProperties ps d out) := by
  induction ps generalizing out notes with
  | nil =>
    rw [noteProperties, parseProperties]
    rfl
  | cons q ps ihps =>
    rw [noteProperties]
    split <;> rename_i hv
    · rename_i v
      rw [ih q v out notes hv]
      cases hx : t.parseValue q v with
      | error f =>
        rw [parseProperties_of_error hv hx]
        rfl
      | ok x =>
        rw [parseProperties_of_ok hv hx]
        exact ihps _ _
    · rw [parseProperties_of_none hv]
      split
      · exact ihps _ _
      · rfl

theorem noteValue_eq (t : Table) (q : PropertyPlan) (v : Value) (out : Object)
    (notes : List ManifestErrors.Note) :
    t.noteValue q v out notes = notedValue q out notes (t.parseValue q v) := by
  induction v using Value.part_induction generalizing q out notes with
  | step v ih =>
    rw [noteValue.eq_def, parseValue.eq_def]
    cases t.shape q.plan with
    | enumeration e =>
      cases v with
      | string s =>
        simp only
        split <;> rfl
      | null | bool | int | double | binary | list | dict => rfl
    | object o =>
      cases v with
      | dict d =>
        simp only
        rw [noteProperties_eq_of_values fun q v out notes hv => ih v (.of_get? hv) q out notes]
        obtain ⟨child, fault⟩ := t.parseProperties o.properties d (t.newObject o)
        cases fault with
        | none => rfl
        | some f => simp only [noted, notedValue, ManifestFault.notes_under, List.append_assoc]
      | null | bool | int | double | string | binary | list => rfl
    | choices c =>
      simp only
      rw [populateChoice]
      cases t.convertChoice c none v <;> rfl
    | array items =>
      cases v with
      | list vs =>
        simp only
        cases t.convert q.plan none (.list vs) <;> rfl
      | null | bool | int | double | string | binary | dict => rfl
    | boolean | integer | int64 | double | string | binary | any | function =>
      simp only
      cases t.convert q.plan none v <;> rfl

/-- However a manifest is read, the notes are those on its fault (`ManifestFault.notes`). -/
theorem noteObject_eq (t : Table) (o : ObjectPlan) (d : Dict Value) (out : Object)
    (notes : List ManifestErrors.Note) :
    t.noteObject o d out notes = noted notes (t.parseObject o d out) :=
  noteProperties_eq_of_values (fun q v out notes _ => t.noteValue_eq q v out notes) out notes

/-- The report on a manifest that is refused. Its path leads to the first property that is not
accepted (`FaultAt`); its notes are one message, which is not empty, and the keys of the path from
the inside out. None of the notes is refused where nothing has been reported before, and the report
can be made. -/
structure Reports (t : Table) (o : ObjectPlan) (d : Dict Value) (f : ManifestFault)
    (notes : List ManifestErrors.Note) (path : List String) : Prop where
  notes_eq : notes = .message f.message :: path.reverse.map .key
  message_ne : f.message ≠ ""
  path_ne : path ≠ []
  faultAt : t.FaultAt o d path
  taken : ManifestErrors.takeAll? {} notes = some (ManifestErrors.record {} f)
  path_eq : (ManifestErrors.record {} f).path = path
  report_eq : (ManifestErrors.record {} f).report? = some (ManifestErrors.record {} f).render

theorem FaultAt.path_ne (h : t.FaultAt o d path) : path ≠ [] := by
  cases h with
  | here | under => exact List.cons_ne_nil _ _

theorem reports_of_faultAt {f : ManifestFault} (hm : f.message ≠ "") (h : t.FaultAt o d f.keys.reverse) :
    t.Reports o d f f.notes f.keys.reverse where
  notes_eq := by rw [List.reverse_reverse, ManifestFault.notes]
  message_ne := hm
  path_ne := h.path_ne
  faultAt := h
  taken := f.takeAll?_notes
  path_eq := rfl
  report_eq := if_pos ⟨hm, fun hk => h.path_ne (List.reverse_eq_nil_iff.mpr hk)⟩

/-- Starting without notes, a manifest is accepted and leaves none, or it is refused and `Reports`
its first bad property. -/
theorem accepts_or_reports (t : Table) (o : ObjectPlan) (d : Dict Value) (out : Object) :
    (∃ x, t.parseObject o d out = (x, none) ∧ t.noteObject o d out [] = (true, x, []) ∧ t.TakesDict o d) ∨
      ∃ x f notes path, t.parseObject o d out = (x, some f) ∧
        t.noteObject o d out [] = (false, x, notes) ∧ t.Reports o d f notes path := by
  have hrun := t.dictParsed o d out
  have hnotes := t.noteObject_eq o d out []
  generalize t.parseObject o d out = run at hrun hnotes ⊢
  obtain ⟨x, fault⟩ := run
  cases hrun with
  | accepted h => exact .inl ⟨x, rfl, hnotes, h⟩
  | @faulty f hm h => exact .inr ⟨x, f, f.notes, f.keys.reverse, rfl, hnotes, reports_of_faultAt hm h⟩

end Table

end Interchange
