import Interchange.Proofs.Loading
import Interchange.Schema.Document

/-! # Namespaces as they are read from documents

Keys stand for one thing each, at every depth, and parameters have distinct names
(`Namespace.Keyed`); each reader is shown to give this by `Reader.Gives`. A document is read up to
the bracket that closes it, so text behind it makes no difference.
-/

namespace Interchange.Schema

open Codec (bind_eq_ok_iff)
open Document (Cause Error Found Place Reader)
open Relation (ReflTransGen)

/-! ## Types from JSON -/

/-- In every object of the type, at any depth, each key stands for one property. `Ty.ofJson` and
`Reading.type` give only such types. -/
def Ty.Keyed (t : Ty) : Prop :=
  ∀ u, ReflTransGen Ty.Part u t → ∀ ps a, u.kind = .object ps a → ps.Distinct

/-- What holds of the type itself and of its parts holds at every depth. -/
theorem Ty.keyed_of_parts {t : Ty} (hd : ∀ ps a, t.kind = .object ps a → ps.Distinct)
    (h : ∀ u, Ty.Part u t → u.Keyed) : t.Keyed := by
  intro w hw
  rcases hw.cases_tail with rfl | ⟨u, hwu, hut⟩
  · exact hd
  · exact h u hut w hwu

theorem Ty.keyed_object {name : Option String} {ps : Dict Property} {a : Option Ty} {origin : Origin}
    (hd : ps.Distinct) (hps : ∀ e ∈ ps.entries, e.2.type.Keyed) (ha : ∀ t, a = some t → t.Keyed) :
    Ty.Keyed ⟨name, .object ps a, origin⟩ := by
  refine keyed_of_parts ?_ fun u hu => ?_
  · rintro _ _ ⟨⟩
    exact hd
  · cases hu with
    | property he => exact hps _ he
    | additional => exact ha u rfl

/-- What has been read of the members of a kind has `Ty.Keyed` types in it. The invariant of
`readKind`. -/
structure Members.Keyed (s : Members) : Prop where
  properties : ∀ ps, s.properties = some ps → ps.Distinct ∧ ∀ e ∈ ps.entries, e.2.type.Keyed
  additional : ∀ t, s.additional = some (some t) → t.Keyed
  items : ∀ t, s.items = some t → t.Keyed
  variants : ∀ ts, s.variants = some ts → ∀ t ∈ ts, t.Keyed

theorem Members.keyed_empty : Members.Keyed {} where
  properties := nofun
  additional := nofun
  items := nofun
  variants := nofun

namespace Members.Keyed

variable {s : Members}

theorem withProperties (hs : s.Keyed) {ps : Dict Property} (hd : ps.Distinct)
    (hps : ∀ e ∈ ps.entries, e.2.type.Keyed) : Members.Keyed { s with properties := some ps } := by
  refine ⟨?_, hs.additional, hs.items, hs.variants⟩
  rintro _ ⟨⟩
  exact ⟨hd, hps⟩

theorem withAdditional (hs : s.Keyed) {a : Option Ty} (ha : ∀ t, a = some t → t.Keyed) :
    Members.Keyed { s with additional := some a } := by
  refine ⟨hs.properties, ?_, hs.items, hs.variants⟩
  rintro t ⟨⟩
  exact ha t rfl

theorem withItems (hs : s.Keyed) {t : Ty} (ht : t.Keyed) : Members.Keyed { s with items := some t } := by
  refine ⟨hs.properties, hs.additional, ?_, hs.variants⟩
  rintro _ ⟨⟩
  exact ht

theorem withVariants (hs : s.Keyed) {ts : List Ty} (hts : ∀ t ∈ ts, t.Keyed) :
    Members.Keyed { s with variants := some ts } := by
  refine ⟨hs.properties, hs.additional, hs.items, ?_⟩
  rintro _ ⟨⟩
  exact hts

end Members.Keyed

theorem eq_of_required {α : Type} {field : String} {o : Option α} {a : α}
    (h : required field o = .ok a) : o = some a := by
  cases o with
  | none => cases h
  | some => cases h; rfl

theorem Members.Keyed.type {s : Members} (hs : s.Keyed) {tag : Tag} {k : Kind Ty}
    (h : s.kind tag = .ok k) (name : Option String) (origin : Origin) : Ty.Keyed ⟨name, k, origin⟩ := by
  cases tag with
  | object =>
    cases h
    have hps : (s.properties.getD ∅).Distinct ∧ ∀ e ∈ (s.properties.getD ∅).entries, e.2.type.Keyed := by
      cases hps : s.properties with
      | none => exact ⟨Dict.distinct_empty, List.forall_mem_nil _⟩
      | some ps => exact hs.properties ps hps
    refine Ty.keyed_object hps.1 hps.2 fun t ht => ?_
    cases ha : s.additional with
    | none =>
      rw [ha] at ht
      cases ht
    | some a =>
      rw [ha] at ht
      cases ht
      exact hs.additional t ha
  | array =>
    obtain ⟨t, ht, rfl⟩ := map_eq_ok_iff.mp h
    refine Ty.keyed_of_parts nofun fun u hu => ?_
    cases hu
    exact hs.items t (eq_of_required ht)
  | choices =>
    obtain ⟨ts, hts, rfl⟩ := map_eq_ok_iff.mp h
    refine Ty.keyed_of_parts nofun fun u hu => ?_
    cases hu with
    | variant hu => exact hs.variants ts (eq_of_required hts) u hu
  | enumeration | reference =>
    obtain ⟨_, -, rfl⟩ := map_eq_ok_iff.mp h
    exact Ty.keyed_of_parts nofun nofun
  | boolean | integer | int64 | double | string | any | binary | function =>
    cases h
    exact Ty.keyed_of_parts nofun nofun

mutual

theorem keyed_ofJson {j : Json} {t : Ty} (h : Ty.ofJson j = .ok t) : t.Keyed := by
  cases j with
  | null | bool | number | string | array => cases h
  | object ms =>
    obtain ⟨ms⟩ := ms
    rw [Ty.ofJson] at h
    obtain ⟨header, -, h⟩ := bind_eq_ok_iff.mp h
    obtain ⟨tag, -, h⟩ := bind_eq_ok_iff.mp h
    obtain ⟨members, hm, h⟩ := bind_eq_ok_iff.mp h
    obtain ⟨kind, hk, h⟩ := bind_eq_ok_iff.mp h
    cases h
    exact (keyed_readKind Members.keyed_empty hm).type hk _ _

theorem keyed_propertyOfJson {j : Json} {q : Property}
    (h : propertyOfJson j = .ok q) : q.type.Keyed := by
  cases j with
  | null | bool | number | string | array => cases h
  | object ms =>
    obtain ⟨ms⟩ := ms
    rw [propertyOfJson] at h
    obtain ⟨optional, -, h⟩ := bind_eq_ok_iff.mp h
    obtain ⟨header, -, h⟩ := bind_eq_ok_iff.mp h
    obtain ⟨tag, -, h⟩ := bind_eq_ok_iff.mp h
    obtain ⟨members, hm, h⟩ := bind_eq_ok_iff.mp h
    obtain ⟨kind, hk, h⟩ := bind_eq_ok_iff.mp h
    cases h
    exact (keyed_readKind Members.keyed_empty hm).type hk _ _

theorem keyed_readKind {tag : Tag} {s s' : Members} {ms : List (String × Json)} (hs : s.Keyed)
    (h : readKind tag s ms = .ok s') : s'.Keyed := by
  cases ms with
  | nil =>
    cases h
    exact hs
  | cons m ms =>
    obtain ⟨k, j⟩ := m
    rw [readKind] at h
    cases hm : tag.member? k with
    | none =>
      -- a member that the kind does not have is passed over
      rw [hm] at h
      exact keyed_readKind hs h
    | some member =>
      rw [hm] at h
      cases member with
      | properties =>
        obtain ⟨_, -, h⟩ := bind_eq_ok_iff.mp h
        cases j with
        | object d =>
          obtain ⟨es⟩ := d
          obtain ⟨ps, hps, h⟩ := bind_eq_ok_iff.mp h
          have hkeyed : ∀ e ∈ (Dict.ofList ps).entries, e.2.type.Keyed :=
            fun e he => keyed_readProperties hps e (Dict.mem_ofList he)
          exact keyed_readKind (hs.withProperties (Dict.distinct_ofList ps) hkeyed) h
        | null | bool | number | string | array => cases h
      | additional =>
        obtain ⟨_, -, h⟩ := bind_eq_ok_iff.mp h
        cases j with
        | null =>
          refine keyed_readKind (hs.withAdditional ?_) h
          rintro _ ⟨⟩
        | bool | number | string | array | object =>
          obtain ⟨a, ha, h⟩ := bind_eq_ok_iff.mp h
          obtain ⟨t, ht, rfl⟩ := map_eq_ok_iff.mp ha
          refine keyed_readKind (hs.withAdditional ?_) h
          rintro _ ⟨⟩
          exact keyed_ofJson ht
      | items =>
        obtain ⟨_, -, h⟩ := bind_eq_ok_iff.mp h
        obtain ⟨t, ht, h⟩ := bind_eq_ok_iff.mp h
        exact keyed_readKind (hs.withItems (keyed_ofJson ht)) h
      | variants =>
        obtain ⟨_, -, h⟩ := bind_eq_ok_iff.mp h
        cases j with
        | array js =>
          obtain ⟨ts, hts, h⟩ := bind_eq_ok_iff.mp h
          exact keyed_readKind (hs.withVariants (keyed_readTypes hts)) h
        | null | bool | number | string | object => cases h
      | members | serializable | target =>
        obtain ⟨_, -, h⟩ := bind_eq_ok_iff.mp h
        obtain ⟨_, -, h⟩ := bind_eq_ok_iff.mp h
        refine keyed_readKind ?_ h
        exact ⟨hs.properties, hs.additional, hs.items, hs.variants⟩

theorem keyed_readProperties {ms : List (String × Json)} {ps : List (String × Property)}
    (h : readProperties ms = .ok ps) : ∀ e ∈ ps, e.2.type.Keyed := by
  cases ms with
  | nil =>
    cases h
    exact List.forall_mem_nil _
  | cons m ms =>
    obtain ⟨k, j⟩ := m
    rw [readProperties] at h
    obtain ⟨q, hq, h⟩ := bind_eq_ok_iff.mp h
    obtain ⟨ps', hps, h⟩ := bind_eq_ok_iff.mp h
    cases h
    exact List.forall_mem_cons.mpr ⟨keyed_propertyOfJson hq, keyed_readProperties hps⟩

theorem keyed_readTypes {js : List Json} {ts : List Ty} (h : readTypes js = .ok ts) :
    ∀ t ∈ ts, t.Keyed := by
  cases js with
  | nil =>
    cases h
    exact List.forall_mem_nil _
  | cons j js =>
    rw [readTypes] at h
    obtain ⟨t, ht, h⟩ := bind_eq_ok_iff.mp h
    obtain ⟨ts', hts, h⟩ := bind_eq_ok_iff.mp h
    cases h
    exact List.forall_mem_cons.mpr ⟨keyed_ofJson ht, keyed_readTypes hts⟩

end

/-! ## Readers of namespaces -/

/-- Parameters with distinct names, and with `Ty.Keyed` types. -/
def KeyedParams (ps : List Property) : Prop := (ps.map (·.name)).Nodup ∧ ∀ q ∈ ps, q.type.Keyed

def FunctionDecl.Keyed (f : FunctionDecl) : Prop :=
  KeyedParams f.params ∧ ∀ ps, f.results = some ps → KeyedParams ps

/-- A namespace whose keys stand for one thing each, and whose parameters have distinct names. -/
structure Namespace.Keyed (ns : Namespace) : Prop where
  types : ns.types.Distinct ∧ ∀ e ∈ ns.types.entries, e.2.Keyed
  manifest : ∀ t, ns.manifest = some t → t.Keyed
  functions : ns.functions.Distinct ∧ ∀ e ∈ ns.functions.entries, e.2.Keyed
  events : ns.events.Distinct ∧ ∀ e ∈ ns.events.entries, KeyedParams e.2.params

theorem keyedParams_nil : KeyedParams [] :=
  ⟨List.nodup_nil, List.forall_mem_nil _⟩

namespace Reading

open Document.Reader

theorem gives_bool : Gives (glance readBool) fun _ => True :=
  gives_glance nofun nofun

theorem gives_string : Gives (glance readString) fun _ => True :=
  gives_glance nofun nofun

theorem gives_name : Gives (glance readName) fun _ => True :=
  gives_glance nofun nofun

theorem gives_origin : Gives origin fun _ => True := by
  refine gives_openRecord _ trivial ?_
  simp only [List.forall_mem_cons]
  have hflag : ∀ (name : String) (put : Origin → Bool → Origin),
      (Field.of name (glance readBool) put).Keeps fun _ => True :=
    fun name put => gives_bool.field (fun _ _ _ _ => trivial) name
  exact ⟨hflag _ _, hflag _ _, hflag _ _, List.forall_mem_nil _⟩

theorem keyed_decode {header : Header} {ms : List (String × Json)} {t : Ty}
    (h : decode header ms = .ok t) : t.Keyed := by
  obtain ⟨tag, -, h⟩ := bind_eq_ok_iff.mp h
  obtain ⟨members, hm, h⟩ := bind_eq_ok_iff.mp h
  obtain ⟨kind, hk, h⟩ := bind_eq_ok_iff.mp h
  cases h
  exact (keyed_readKind Members.keyed_empty hm).type hk _ _

theorem gives_readMember (s : OpenType) (key : String) : Gives (readMember s key) fun _ => True := by
  unfold readMember
  split_ifs
  · exact gives_name.map fun _ _ => trivial
  · exact gives_origin.map fun _ _ => trivial
  · exact gives_json.map fun _ _ => trivial

theorem gives_type : Gives type Ty.Keyed := by
  intro p x t ht
  unfold type at ht
  split at ht
  · obtain ⟨p', -, ht⟩ := bind_eq_ok_iff.mp ht
    obtain ⟨s, hs, ht⟩ := bind_eq_ok_iff.mp ht
    rw [Place.run_eq_ok_iff] at ht
    have hm := gives_members (I := fun _ => True) (fun s k _ => gives_readMember s k) trivial hs
    exact ⟨hm.1, keyed_decode ht⟩
  · exact absurd ht (mismatch_ne_ok _ _ _ _)

theorem gives_readOptionalMember (s : OpenProperty) (key : String) :
    Gives (readOptionalMember s key) fun _ => True := by
  unfold readOptionalMember
  split_ifs
  · exact gives_bool.map fun _ _ => trivial
  · exact gives_json.map fun _ _ => trivial

theorem gives_property : Gives property fun q => q.type.Keyed := by
  intro p x q hq
  unfold property at hq
  split at hq
  · obtain ⟨p', -, hq⟩ := bind_eq_ok_iff.mp hq
    obtain ⟨s, hs, hq⟩ := bind_eq_ok_iff.mp hq
    obtain ⟨t, ht, hq⟩ := bind_eq_ok_iff.mp hq
    rw [Place.run_eq_ok_iff] at ht
    obtain ⟨header, -, ht⟩ := bind_eq_ok_iff.mp ht
    cases hq
    have hm := gives_members (I := fun _ => True) (fun s k _ => gives_readOptionalMember s k) trivial hs
    exact ⟨hm.1, keyed_decode ht⟩
  · exact absurd hq (mismatch_ne_ok _ _ _ _)

theorem gives_params : Gives params KeyedParams := by
  refine gives_property.mapping.map fun d hd => ?_
  obtain ⟨hdistinct, hprops⟩ := hd
  refine ⟨?_, fun q hq => ?_⟩
  · rw [List.map_map]
    exact hdistinct
  · obtain ⟨e, he, rfl⟩ := List.mem_map.mp hq
    exact hprops e he

theorem gives_results : Gives results KeyedParams := by
  refine gives_openRecord _ keyedParams_nil ?_
  exact List.forall_mem_singleton.mpr (gives_params.field (fun _ _ _ h => h) _)

theorem gives_function : Gives function FunctionDecl.Keyed := by
  refine gives_openRecord _ ⟨keyedParams_nil, nofun⟩ ?_
  rw [List.forall_mem_cons, List.forall_mem_singleton]
  exact ⟨gives_params.field (fun _ _ hf hps => ⟨hps, hf.2⟩) _,
    gives_results.optional.field (fun _ _ hf hr => ⟨hf.1, hr⟩) _⟩

theorem gives_event : Gives event fun e => KeyedParams e.params := by
  refine gives_openRecord _ keyedParams_nil ?_
  refine List.forall_mem_singleton.mpr (gives_params.field ?_ _)
  exact fun _ _ _ hps => hps

theorem gives_errorMessages : Gives errorMessages fun _ => True := by
  refine gives_openRecord _ trivial ?_
  exact List.forall_mem_singleton.mpr (gives_bool.field (fun _ _ _ _ => trivial) _)

theorem keeps_namespaceFields : ∀ f ∈ namespaceFields, f.Keeps Namespace.Keyed := by
  simp only [namespaceFields, List.forall_mem_cons]
  refine ⟨?_, ?_, ?_, ?_, ?_, ?_, List.forall_mem_nil _⟩
  · exact gives_string.field (fun _ _ h _ => ⟨h.types, h.manifest, h.functions, h.events⟩) _
  · exact gives_type.mapping.field (fun _ _ h ht => ⟨ht, h.manifest, h.functions, h.events⟩) _
  · exact gives_type.optional.field (fun _ _ h hm => ⟨h.types, hm, h.functions, h.events⟩) _
  · exact gives_function.mapping.field (fun _ _ h hf => ⟨h.types, h.manifest, hf, h.events⟩) _
  · exact gives_event.mapping.field (fun _ _ h he => ⟨h.types, h.manifest, h.functions, he⟩) _
  · exact gives_errorMessages.field (fun _ _ h _ => ⟨h.types, h.manifest, h.functions, h.events⟩) _

theorem keyed_empty (name : String) : (⟨name, ∅, none, ∅, ∅, false⟩ : Namespace).Keyed where
  types := ⟨Dict.distinct_empty, List.forall_mem_nil _⟩
  manifest := nofun
  functions := ⟨Dict.distinct_empty, List.forall_mem_nil _⟩
  events := ⟨Dict.distinct_empty, List.forall_mem_nil _⟩

theorem gives_namespaceAsWritten : Gives namespaceAsWritten Namespace.Keyed := by
  intro p x ns hns
  unfold namespaceAsWritten at hns
  obtain ⟨r, hr, hns⟩ := bind_eq_ok_iff.mp hns
  obtain ⟨hx, hkeyed⟩ := gives_record _ (keyed_empty "") keeps_namespaceFields p x r hr
  dsimp only at hns
  split at hns
  · cases hns
    exact ⟨hx, hkeyed⟩
  · cases hns

theorem isBracketed_of_namespaceAsWritten {p : Place} {x : Json.Outline} {ns : Namespace}
    (h : namespaceAsWritten p x = .ok ns) : x.isBracketed = true := by
  obtain ⟨r, hr, -⟩ := bind_eq_ok_iff.mp h
  exact isBracketed_of_record hr

end Reading

/-! ## What follows a document -/

/-- What is loaded is in the document alone: text behind it changes neither that `loadNamespace` or
`loadNamespaces` succeeds nor what they give. -/
theorem load_append_eq_ok (bs more : List UInt8) :
    (∀ ns, loadNamespace bs = .ok ns → loadNamespace (bs ++ more) = .ok ns) ∧
      ∀ nss, loadNamespaces bs = .ok nss → loadNamespaces (bs ++ more) = .ok nss := by
  constructor
  · intro ns h
    obtain ⟨written, hw, rfl⟩ := map_eq_ok_iff.mp h
    have hb := Reading.isBracketed_of_namespaceAsWritten hw
    rw [loadNamespace, Document.load_append Reading.gives_namespaceAsWritten hb hw]
    rfl
  · intro nss h
    obtain ⟨written, hw, rfl⟩ := map_eq_ok_iff.mp h
    have hb := Document.Reader.isBracketed_of_list hw
    rw [loadNamespaces, Document.load_append Reading.gives_namespaceAsWritten.list hb hw]
    rfl

/-! ### A board -/

namespace Board

/-- Cards have a place, which is an object of its own. One field is passed over. -/
def document : List UInt8 :=
  ("\x7b\"name\":\"board\",\"later\":[0],\"types\":\x7b\"Card\":" ++
    "\x7b\"type\":\"object\",\"properties\":\x7b\"at\":" ++
    "\x7b\"type\":\"object\",\"properties\":\x7b\"x\":\x7b\"type\":\"any\"\x7d\x7d\x7d" ++
    "\x7d\x7d\x7d\x7d").toUTF8.toList

/-- Two namespaces, one of them a list of its fields. -/
def documents : List UInt8 := "[[\"board\"],\x7b\"name\":\"deck\"\x7d]".toUTF8.toList

/-- A second name, which a reader that looked further would refuse or take. -/
def more : List UInt8 := ",\"name\":\"deck\"\x7d]".toUTF8.toList

/-- The names of properties at any depth. -/
def labels (ns : Namespace) : List String :=
  (ns.rootTypes.flatMap Ty.all).flatMap (·.kind.propertyNames)

theorem exists_namespace : ∃ ns, loadNamespace document = .ok ns ∧ labels ns = ["at", "x"] := by
  have h : (loadNamespace document).toOption.map labels = some ["at", "x"] := by decide +kernel
  cases hns : loadNamespace document with
  | error e =>
    rw [hns] at h
    cases h
  | ok ns =>
    rw [hns] at h
    exact ⟨ns, rfl, Option.some.inj h⟩

theorem exists_namespaces : ∃ nss, loadNamespaces documents = .ok nss :=
  Codec.exists_of_isOk (by decide +kernel)

end Board

theorem load_append_eq_ok_board :
    (∃ ns, loadNamespace Board.document = .ok ns ∧
      loadNamespace (Board.document ++ Board.more) = .ok ns) ∧
    ∃ nss, loadNamespaces Board.documents = .ok nss ∧
      loadNamespaces (Board.documents ++ Board.more) = .ok nss := by
  obtain ⟨ns, hns, -⟩ := Board.exists_namespace
  obtain ⟨nss, hnss⟩ := Board.exists_namespaces
  have hone := (load_append_eq_ok Board.document Board.more).1 ns hns
  have hall := (load_append_eq_ok Board.documents Board.more).2 nss hnss
  exact ⟨⟨ns, hns, hone⟩, nss, hnss, hall⟩

end Interchange.Schema
