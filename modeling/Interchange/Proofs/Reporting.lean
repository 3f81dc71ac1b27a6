import Interchange.Codec.Use
import Interchange.Proofs.Runs
import Interchange.Proofs.Unfolding

/-! # The convention of a codec shows in messages only

Two runs that differ in their convention succeed together or fail together, and leave the same
instance in either case (`SameRun`). Their failures are of the same kind; one of them has no
message, and that of the other one is not empty (`Failure.Agree`). `EitherWay` states this of each
operation of a codec, and `Codec.OnlyMessages` of all.
-/

namespace Interchange

open Plan

/-! ## Messages -/

theorem append_ne_empty {s : String} (h : s ≠ "") (s' : String) : s ++ s' ≠ "" := by
  intro he
  exact h (String.append_eq_empty_iff.mp he).1

namespace Fault

theorem keyed_ne_empty {key : Option String} {message : String} (h : message ≠ "") :
    keyed key message ≠ "" := by
  cases key with
  | none => exact h
  | some k => exact append_ne_empty (append_ne_empty (append_ne_empty (by decide) _) _) _

theorem inList_ne_empty (key : Option String) (i : Nat) (message : String) :
    inList key i message ≠ "" := by
  cases key with
  | none => exact append_ne_empty (append_ne_empty (append_ne_empty (by decide) _) _) _
  | some k => exact append_ne_empty (append_ne_empty (append_ne_empty (by decide) _) _) _

theorem message_ne_empty (f : Fault) : f.message ≠ "" := by
  have hexpected (a b c : String) : "expected " ++ a ++ b ++ c ≠ "" :=
    append_ne_empty (append_ne_empty (append_ne_empty (by decide) _) _) _
  cases f with
  | missing key => exact append_ne_empty (append_ne_empty (by decide) _) _
  | mismatch | noVariant | unknownMember => exact keyed_ne_empty (hexpected _ _ _)
  | element | member => exact inList_ne_empty _ _ _
  | argumentCount => exact hexpected _ _ _

end Fault

/-! ## Runs that differ in their convention -/

section Same

variable {ε δ α σ : Type} {R : ε → ε → Prop}

/-- A failure without a message, and one of the same kind with a message that is not empty. -/
inductive Failure.Agree : Failure → Failure → Prop
  | intro {kind : FailureKind} {message : String} (h : message ≠ "") :
      Agree ⟨kind, none⟩ ⟨kind, some message⟩

/-- The same result, or errors that are related. -/
inductive SameResult (R : ε → ε → Prop) : Except ε α → Except ε α → Prop
  | ok (a : α) : SameResult R (.ok a) (.ok a)
  | error {e e' : ε} (h : R e e') : SameResult R (.error e) (.error e')

/-- Runs that leave the same state and have both succeeded, or failed with errors that are related.
-/
def SameRun (R : ε → ε → Prop) (x y : σ × Option ε) : Prop := x.1 = y.1 ∧ Option.Rel R x.2 y.2

/-- Two runs with a budget, such as `convertWithin`, that both end and are related. -/
def BothEnd (R : α → α → Prop) (x y : Option α) : Prop := ∃ a b, x = some a ∧ y = some b ∧ R a b

/-- Relates what comes of both conventions, where `x` is run under each. -/
def EitherWay (R : α → α → Prop) (x : Convention → α) : Prop := R (x .silent) (x .diagnostic)

theorem sameResult_mapError {f g : δ → ε} (h : ∀ e, R (f e) (g e)) (x : Except δ α) :
    SameResult R (x.mapError f) (x.mapError g) := by
  cases x with
  | ok a => exact .ok a
  | error e => exact .error (h e)

theorem SameResult.bind {β : Type} {x y : Except ε α} {f g : α → Except ε β} (h : SameResult R x y)
    (hfg : ∀ a, SameResult R (f a) (g a)) : SameResult R (x >>= f) (y >>= g) := by
  cases h with
  | ok a => exact hfg a
  | error h => exact .error h

/-- Goes on with a result, or stops at an error and leaves the state as it is. The form of
`populate` and `populateDict`. -/
def goOn (x : Except ε α) (s : σ) (next : α → σ × Option ε) : σ × Option ε :=
  match x with
  | .ok a => next a
  | .error e => (s, some e)

theorem SameResult.goOn {x y : Except ε α} {f g : α → σ × Option ε} (h : SameResult R x y) (s : σ)
    (hfg : ∀ a, SameRun R (f a) (g a)) : SameRun R (goOn x s f) (goOn y s g) := by
  cases h with
  | ok a => exact hfg a
  | error h => exact ⟨rfl, .some h⟩

theorem sameRun_map {f g : δ → ε} (h : ∀ e, R (f e) (g e)) (s : σ) (e : Option δ) :
    SameRun R (s, e.map f) (s, e.map g) := by
  refine ⟨rfl, ?_⟩
  cases e with
  | none => exact .none
  | some e => exact .some (h e)

theorem Fault.agree (f : Fault) : (f.report .silent).Agree (f.report .diagnostic) :=
  .intro f.message_ne_empty

end Same

/-- An error that was met while reading, without its message and with it (`Failure.Agree`); or one
and the same error that has nothing to do with reading. -/
inductive CodecError.Agree : CodecError → CodecError → Prop
  | failed {f f' : Failure} (h : f.Agree f') : Agree (.failed f) (.failed f')
  | refused {e : CodecError} (h : ∀ f, e ≠ .failed f) : Agree e e

/-! ## Codecs under a convention -/

def Codec.under (c : Codec) (convention : Convention) : Codec := { c with convention }

def ObjectType.under (t : ObjectType) (convention : Convention) : ObjectType :=
  { t with codec := t.codec.under convention }

def ChoicesType.under (t : ChoicesType) (convention : Convention) : ChoicesType :=
  { t with codec := t.codec.under convention }

namespace Codec

variable {r : Registry} {settings : Settings} {name : String} {c : Codec} {σ α : Type}

theorem map_bind {ε α β γ : Type} (x : Except ε α) (f : α → Except ε β) (g : β → γ) :
    (x >>= f).map g = x >>= fun a => (f a).map g := by
  cases x <;> rfl

/-- Settings choose the convention of a codec and nothing else. -/
theorem generate_under (r : Registry) (settings : Settings) (name : String) (convention : Convention) :
    generate r ⟨some convention⟩ name = (generate r settings name).map (·.under convention) := by
  simp only [generate, map_bind]
  refine bind_congr fun _ => bind_congr fun ns => bind_congr fun origins => bind_congr fun _ =>
    bind_congr fun table => ?_
  cases ns.manifest with
  | none => rfl
  | some root =>
    simp only [Option.map_some, map_bind]
    rfl

theorem object_under (c : Codec) (convention : Convention) (name : String) :
    (c.under convention).object name = (c.object name).map (·.under convention) := by
  obtain ⟨_, _, table, _, _, _, _, _⟩ := c
  simp only [object, under, map_bind]
  refine bind_congr fun id => ?_
  cases table.shape (.named id) <;> rfl

theorem choices_under (c : Codec) (convention : Convention) (name : String) :
    (c.under convention).choices name = (c.choices name).map (·.under convention) := by
  obtain ⟨_, _, table, _, _, _, _, _⟩ := c
  simp only [choices, under, map_bind]
  refine bind_congr fun id => ?_
  cases table.shape (.named id) <;> rfl

theorem manifestRoot_under (c : Codec) (convention : Convention) :
    (c.under convention).manifestRoot = c.manifestRoot.map (·.under convention) := by
  obtain ⟨_, _, table, _, _, manifest, _, _⟩ := c
  cases manifest with
  | none => rfl
  | some id =>
    simp only [manifestRoot, under]
    cases table.shape (.named id) <;> rfl

/-! ## Operations -/

theorem agree_failed (c : Codec) (f : Fault) : EitherWay CodecError.Agree fun k => (c.under k).failed f :=
  .failed f.agree

theorem agree_outcome (c : Codec) (x : Outcome σ) :
    EitherWay (SameRun CodecError.Agree) fun k => (c.under k).outcome x :=
  sameRun_map c.agree_failed x.1 x.2

theorem agree_fresh (c : Codec) (x : Outcome σ) :
    EitherWay (SameResult CodecError.Agree) fun k => (c.under k).fresh x :=
  sameResult_mapError c.agree_failed x.toExcept

theorem agree_readParams (c : Codec) (f : FunctionPlan) (args : List Value) :
    EitherWay (SameResult CodecError.Agree) fun k => (c.under k).readParams f args :=
  sameResult_mapError c.agree_failed (c.table.readArguments f.params args)

/-- An operation is offered under both conventions or under none, since `require` does not look at
it. -/
theorem agree_require (c : Codec) (id : Nat) (name : String) (op : Operation) :
    EitherWay (SameResult CodecError.Agree) fun k => (c.under k).require id name op := by
  have hrefused : SameResult CodecError.Agree (c.require id name op) (c.require id name op) := by
    unfold require
    split
    · exact .ok ()
    · exact .error (.refused fun f hf => by cases hf)
  exact hrefused

end Codec

namespace ObjectType

variable (t : ObjectType)

theorem agree_require (op : Operation) :
    EitherWay (SameResult CodecError.Agree) fun k => (t.under k).require op :=
  t.codec.agree_require t.id t.name op

theorem agree_dict (v : Value) : EitherWay (SameResult CodecError.Agree) fun k => (t.under k).dict v := by
  cases v with
  | dict d => exact .ok d
  | null | bool | int | double | string | binary | list => exact .error (t.codec.agree_failed _)

/-- Whatever is read into an object is read alike under both conventions. -/
structure ReadsAlike : Prop where
  populate : ∀ v out, EitherWay (SameRun CodecError.Agree) fun k => (t.under k).populate v out
  populateDict : ∀ d out, EitherWay (SameRun CodecError.Agree) fun k => (t.under k).populateDict d out
  ofDict : ∀ d, EitherWay (SameResult CodecError.Agree) fun k => (t.under k).ofDict d
  ofValue : ∀ v, EitherWay (SameResult CodecError.Agree) fun k => (t.under k).ofValue v

theorem populateDict_eq (d : Dict Value) (out : Object) : t.populateDict d out =
    goOn (t.require .populate) out fun _ => t.codec.outcome (t.table.populateObject t.plan d out) := by
  unfold populateDict
  cases t.require .populate <;> rfl

theorem populate_eq (v : Value) (out : Object) : t.populate v out =
    goOn (t.require .populate) out fun _ => goOn (t.dict v) out fun d =>
      t.codec.outcome (t.table.populateObject t.plan d out) := by
  unfold populate
  cases t.require .populate with
  | error e => rfl
  | ok => cases t.dict v <;> rfl

theorem readsAlike : t.ReadsAlike where
  populate v out := by
    simp only [populate_eq]
    exact (t.agree_require .populate).goOn out fun _ => (t.agree_dict v).goOn out fun d =>
      t.codec.agree_outcome (t.table.populateObject t.plan d out)
  populateDict d out := by
    simp only [populateDict_eq]
    exact (t.agree_require .populate).goOn out fun _ =>
      t.codec.agree_outcome (t.table.populateObject t.plan d out)
  ofDict d := (t.agree_require _).bind fun _ => t.codec.agree_fresh _
  ofValue v := (t.agree_require _).bind fun _ => (t.agree_dict v).bind fun _ => t.codec.agree_fresh _

end ObjectType

namespace ChoicesType

variable (t : ChoicesType)

theorem agree_require (op : Operation) :
    EitherWay (SameResult CodecError.Agree) fun k => (t.under k).require op :=
  t.codec.agree_require t.id t.name op

/-- The same as `ObjectType.ReadsAlike` for choices. -/
structure ReadsAlike : Prop where
  populate : ∀ v out, EitherWay (SameRun CodecError.Agree) fun k => (t.under k).populate v out
  ofValue : ∀ v, EitherWay (SameResult CodecError.Agree) fun k => (t.under k).ofValue v

theorem populate_eq (v : Value) (out : Choice) : t.populate v out =
    goOn (t.require .populate) out fun _ => t.codec.outcome (t.table.populateChoice t.plan none v) := by
  unfold populate
  cases t.require .populate <;> rfl

theorem readsAlike : t.ReadsAlike where
  populate v out := by
    simp only [populate_eq]
    exact (t.agree_require .populate).goOn out fun _ =>
      t.codec.agree_outcome (t.table.populateChoice t.plan none v)
  ofValue v := (t.agree_require _).bind fun _ => t.codec.agree_fresh _

end ChoicesType

/-! ## Codecs that differ in their convention -/

namespace Codec

variable {r : Registry} {settings : Settings} {name : String} {c : Codec}

/-- The convention of a codec shows in messages only: in runs that report failures where they are
met (`convertWithin`), as well as in the operations of its types and functions. -/
structure OnlyMessages (c : Codec) : Prop where
  convert : ∀ p key v n, c.table.readingDepth p v < n →
    EitherWay (BothEnd (SameResult Failure.Agree)) fun k => c.table.convertWithin k n p key v
  populateObject : ∀ o d out n, c.table.readingDepth (.inline (.object o)) (.dict d) ≤ n →
    EitherWay (BothEnd (SameRun Failure.Agree)) fun k =>
      Reader.object c.table k (c.table.convertWithin k n) o d out
  populateChoice : ∀ p key v n, c.table.readingDepth (.inline (.choices p)) v ≤ n →
    EitherWay (BothEnd (SameRun Failure.Agree)) fun k =>
      Reader.populateChoice c.table k (c.table.convertWithin k n) p key v
  readArguments : ∀ params args n, c.table.readingDepth (.inline (.object params)) (.list args) ≤ n →
    EitherWay (BothEnd (SameResult Failure.Agree)) fun k =>
      Reader.arguments c.table k (c.table.convertWithin k n) params args
  /-- The types are found alike. -/
  object : ∀ k name, (c.under k).object name = (c.object name).map (·.under k)
  choices : ∀ k name, (c.under k).choices name = (c.choices name).map (·.under k)
  manifestRoot : ∀ k, (c.under k).manifestRoot = c.manifestRoot.map (·.under k)
  objects : ∀ t : ObjectType, t.codec = c → t.ReadsAlike
  choicesTypes : ∀ t : ChoicesType, t.codec = c → t.ReadsAlike
  readParams : ∀ f args, EitherWay (SameResult CodecError.Agree) fun k => (c.under k).readParams f args

/-- Generated codecs that differ in the convention that is asked for have the same table and the
same operations, and are `OnlyMessages` apart. -/
theorem onlyMessages_of_generate (h : generate r settings name = .ok c) :
    (∀ k, generate r ⟨some k⟩ name = .ok (c.under k)) ∧ OnlyMessages c := by
  refine ⟨fun k => ?_, ?_⟩
  · rw [generate_under r settings, h]
    rfl
  · exact {
      convert := fun p key v n hn => ⟨_, _, Table.reads_within _ hn key, Table.reads_within _ hn key,
        sameResult_mapError Fault.agree _⟩
      populateObject := fun o d out n hn => ⟨_, _, Table.object_within _ hn out,
        Table.object_within _ hn out, sameRun_map Fault.agree _ _⟩
      populateChoice := fun p key v n hn => ⟨_, _, Table.choice_within _ hn key,
        Table.choice_within _ hn key, sameRun_map Fault.agree _ _⟩
      readArguments := fun params args n hn => ⟨_, _, Table.arguments_within _ hn,
        Table.arguments_within _ hn, sameResult_mapError Fault.agree _⟩
      object := c.object_under
      choices := c.choices_under
      manifestRoot := c.manifestRoot_under
      objects := fun t _ => t.readsAlike
      choicesTypes := fun t _ => t.readsAlike
      readParams := c.agree_readParams }

theorem onlyMessages_of_generate_forest :
    ∃ c, generate Forest.registry {} "forest" = .ok c ∧
      (∀ k, generate Forest.registry ⟨some k⟩ "forest" = .ok (c.under k)) ∧ OnlyMessages c := by
  obtain ⟨c, hc⟩ := Forest.exists_codec
  exact ⟨c, hc, onlyMessages_of_generate hc⟩

end Codec

end Interchange
