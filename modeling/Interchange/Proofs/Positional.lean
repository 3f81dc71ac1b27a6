import Interchange.Proofs.Faults
import Interchange.Proofs.Openness
import Interchange.Proofs.Reporting

/-! # Arguments by position are read like a dictionary

Under the names of their parameters the arguments of a call are a dictionary (`byName`), from which
those that are null are left out. If their number is right, reading them is reading that dictionary
into a new object (`readArguments_eq_populateObject`): it yields the same object or ends with the
same fault. Any other number is refused before an argument is looked at.
-/

namespace Interchange

open Plan

/-! ## Arguments by name -/

/-- The arguments under the names of their parameters, as far as they are given and not null. -/
def givenArguments (names : List String) (args : List Value) : List (String × Value) :=
  (names.zip args).filter fun e => !e.2.isNull

/-- The dictionary of the arguments of a call, those of `givenArguments`. -/
def Plan.ObjectOf.byName {α : Type} (params : ObjectOf α) (args : List Value) : Dict Value :=
  .ofList (givenArguments (params.properties.map (·.name)) args)

theorem givenArguments_cons (n : String) (names : List String) (v : Value) (args : List Value) :
    givenArguments (n :: names) (v :: args) =
      if v.isNull then givenArguments names args else (n, v) :: givenArguments names args := by
  rw [givenArguments, List.zip_cons_cons, List.filter_cons]
  cases v.isNull <;> rfl

theorem keys_givenArguments (names : List String) (args : List Value) :
    ((givenArguments names args).map (·.1)).Sublist names := by
  induction names generalizing args with
  | nil => exact List.Sublist.refl []
  | cons n names ih =>
    cases args with
    | nil => exact List.nil_sublist _
    | cons v args =>
      rw [givenArguments_cons]
      split
      · exact (ih args).cons n
      · exact (ih args).cons_cons n

theorem lookup_givenArguments_of_not_mem {names : List String} {n : String} (h : n ∉ names)
    (args : List Value) : (givenArguments names args).lookup n = none :=
  (Dict.get?_eq_none_iff (d := ⟨givenArguments names args⟩)).mpr fun hn =>
    h ((keys_givenArguments names args).subset hn)

/-- The first parameter finds the first argument, unless that is null. -/
theorem lookup_givenArguments_head {n : String} {names : List String} (h : n ∉ names)
    (args : List Value) :
    (givenArguments (n :: names) args).lookup n = Table.given? args.head? := by
  cases args with
  | nil => rfl
  | cons v args =>
    rw [givenArguments_cons]
    cases v with
    | null => exact lookup_givenArguments_of_not_mem h args
    | bool | int | double | string | binary | list | dict => exact List.lookup_cons_self

/-- All others find theirs among the rest. -/
theorem lookup_givenArguments_tail {m n : String} (h : m ≠ n) (names : List String)
    (args : List Value) :
    (givenArguments (n :: names) args).lookup m = (givenArguments names args.tail).lookup m := by
  cases args with
  | nil => cases names <;> rfl
  | cons v args =>
    rw [givenArguments_cons]
    split
    · rfl
    · rw [List.lookup_cons, beq_eq_false_iff_ne.mpr h]
      rfl

namespace Table

variable {t : Table} {params : ObjectPlan}

theorem map_lookup_givenArguments {ps : List PropertyPlan} (hn : (ps.map (·.name)).Nodup)
    (args : List Value) :
    (ps.map fun q => (q, (givenArguments (ps.map (·.name)) args).lookup q.name)) = assign ps args := by
  induction ps generalizing args with
  | nil => rfl
  | cons q ps ih =>
    rw [List.map_cons, List.nodup_cons] at hn
    rw [List.map_cons, List.map_cons, assign, lookup_givenArguments_head hn.1, ← ih hn.2 args.tail]
    congr 1
    refine List.map_congr_left fun r hr => ?_
    have hne : r.name ≠ q.name := fun heq => hn.1 (heq ▸ List.mem_map.mpr ⟨r, hr, rfl⟩)
    rw [lookup_givenArguments_tail hne]

/-- What the dictionary of the arguments has for the parameters are the arguments: `sources` of the
one is `assign` of the other. -/
theorem sources_byName (hn : (params.properties.map (·.name)).Nodup) (args : List Value) :
    sources params (params.byName args) = assign params.properties args := by
  rw [← map_lookup_givenArguments hn args, sources]
  refine List.map_congr_left fun q _ => ?_
  rw [ObjectOf.byName, Dict.get?_ofList_of_nodup ((keys_givenArguments _ args).nodup hn)]

/-! ## Reading -/

theorem eq_of_toOption_of_faultOf {α : Type} {x y : Except Fault α} (h : x.toOption = y.toOption)
    (hf : faultOf x = faultOf y) : x = y := by
  cases x <;> cases y <;> simp_all [Except.toOption, faultOf]

theorem readArguments_of_count {args : List Value}
    (hmin : params.properties.countP (!·.optional) ≤ args.length)
    (hmax : args.length ≤ params.properties.length) :
    t.readArguments params args =
      (t.populateEach (assign params.properties args) (t.newObject params)).toExcept := by
  rw [readArguments_eq, if_pos ⟨hmin, hmax⟩, populateArguments_eq]

theorem readArguments_eq_populateObject (hc : params.additional = none)
    (hn : (params.properties.map (·.name)).Nodup) {args : List Value}
    (hmin : params.properties.countP (!·.optional) ≤ args.length)
    (hmax : args.length ≤ params.properties.length) :
    t.readArguments params args =
      (t.populateObject params (params.byName args) (t.newObject params)).toExcept := by
  refine eq_of_toOption_of_faultOf ?_ ?_
  · have hx : (t.populateObject params (params.byName args) (t.newObject params)).toExcept.toOption =
        t.readObject? params (params.byName args) := result?_populateObject_new params _
    rw [toOption_readArguments, if_pos ⟨hmin, hmax⟩, hx, readObject?, sources_byName hn, readExtras?,
      newExtras]
    simp only [hc]
    cases t.readSlots? (assign params.properties args) <;> rfl
  · have hrest : t.extrasFault? params (params.byName args) = none := by rw [extrasFault?, hc]
    rw [readArguments_of_count hmin hmax, faultOf_toExcept, faultOf_toExcept, snd_populateEach,
      snd_populateObject, objectFault?, hrest, sources_byName hn, Option.or_none]

end Table

/-! ## Functions -/

namespace Codec

variable {c : Codec} {f : FunctionPlan}

/-- The arguments of a call. If there are enough and not too many they are read as the dictionary
`byName`, with the same object or the same failure. Otherwise their number is refused, even if there
is nothing that could read a value. -/
structure ReadsByName (c : Codec) (f : FunctionPlan) (args : List Value) : Prop where
  read : f.params.properties.countP (!·.optional) ≤ args.length →
    args.length ≤ f.params.properties.length →
    c.readParams f args =
      c.fresh (c.table.populateObject f.params (f.params.byName args) (c.table.newObject f.params))
  refused : args.length < f.params.properties.countP (!·.optional) ∨
      f.params.properties.length < args.length →
    c.readParams f args = .error (c.failed (.argumentCount f.params.properties.length args.length)) ∧
    ∀ read, Reader.arguments c.table c.convention read f.params args =
      some (.error (Fault.report c.convention (.argumentCount f.params.properties.length args.length)))

theorem readsByName (hc : f.params.additional = none)
    (hn : (f.params.properties.map (·.name)).Nodup) (args : List Value) : c.ReadsByName f args where
  read hmin hmax := by
    rw [readParams, Table.readArguments_eq_populateObject hc hn hmin hmax]
    rfl
  refused hcount := by
    have hnot : ¬(f.params.properties.countP (!·.optional) ≤ args.length ∧
        args.length ≤ f.params.properties.length) := by omega
    constructor
    · rw [readParams, Table.readArguments_eq, if_neg hnot]
      rfl
    · intro read
      rw [Reader.arguments, if_neg hnot]

/-- Functions take no other arguments than those for their parameters. -/
theorem additional_params_eq_none {r : Registry} {settings : Settings} {name function : String}
    (h : generate r settings name = .ok c) (hf : c.function function = .ok f) :
    f.params.additional = none := by
  obtain ⟨ns, -, -, hc⟩ := exists_of_generate h
  obtain ⟨e, -, rfl⟩ := hc.exists_function (mem_values_of_function hf)
  rfl

theorem readsByName_of_generate {r : Registry} {settings : Settings} {name function : String}
    (h : generate r settings name = .ok c) (hf : c.function function = .ok f)
    (hn : (f.params.properties.map (·.name)).Nodup) (args : List Value) : c.ReadsByName f args :=
  readsByName (additional_params_eq_none h hf) hn args

end Codec

/-! ## A clock -/

namespace Clock

open Schema

/-- Only the hour is required, which comes second. -/
def set : FunctionDecl where
  name := "set"
  params := [⟨"zone", true, Ty.ofKind (.enumeration ["CET", "UTC"])⟩, ⟨"hour", false, Ty.ofKind .integer⟩,
    ⟨"note", true, Ty.ofKind .any⟩]
  results := none

def clock : Namespace := (Namespace.empty "clock").withFunction set

def registry : Registry where
  namespaces := [clock]
  distinct := by decide

theorem exists_compiled : ∃ c, Codec.generate registry {} "clock" = .ok c ∧
    Codec.Compiled registry clock c :=
  Codec.exists_compiled (Codec.exists_of_isOk (by decide +kernel)) rfl (by decide)

theorem exists_set {c : Codec} (hc : Codec.Compiled registry clock c) :
    ∃ f, c.function "set" = .ok f ∧ f.params = ⟨"clock.set.params",
      [⟨"zone", true, .inline (.enumeration ⟨"clock.set.params.zone", ["CET", "UTC"]⟩)⟩,
        ⟨"hour", false, .inline .integer⟩, ⟨"note", true, .inline .any⟩], none⟩ := by
  let keys := (Codec.definitions registry clock).map (·.key)
  refine ⟨Codec.functionPlan registry keys "clock" "set" set, ?_, rfl⟩
  rw [Codec.function, hc.functions]
  rfl

end Clock

/-- A null stands for the zone that is not given, and there may be no note. -/
theorem Codec.readsByName_of_generate_clock : ∃ c f, generate Clock.registry {} "clock" = .ok c ∧
    c.function "set" = .ok f ∧ (f.params.properties.map (·.name)).Nodup ∧
    c.readParams f [.null, .int 7] =
      c.fresh (c.table.populateObject f.params ⟨[("hour", .int 7)]⟩ (c.table.newObject f.params)) ∧
    c.readParams f [] = .error (c.failed (.argumentCount 3 0)) := by
  obtain ⟨c, hgen, hc⟩ := Clock.exists_compiled
  obtain ⟨f, hf, hparams⟩ := Clock.exists_set hc
  have hn : (f.params.properties.map (·.name)).Nodup := by
    rw [hparams]
    decide
  have hreads := readsByName_of_generate hgen hf hn
  refine ⟨c, f, hgen, hf, hn, ?_, ?_⟩
  · rw [(hreads [.null, .int 7]).read (by rw [hparams]; decide) (by rw [hparams]; decide), hparams]
    rfl
  · rw [((hreads []).refused (.inl (by rw [hparams]; decide))).1, hparams]
    rfl

end Interchange
