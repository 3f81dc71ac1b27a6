import Interchange.GenerateError
import Interchange.Schema.Basic

/-! # Registries

A `Registry` holds all namespaces of a run. `lookup` finds a type by the name that a reference
gives, and `chase` follows references until they reach a type that is none; a way back to a type
already seen is a cycle, so the types still `unseen` bound the chase.
-/

namespace Interchange

open Schema

/-- Namespaces with distinct names, so `namespace?` finds the only one of a name. -/
structure Registry where
  namespaces : List Namespace
  distinct : (namespaces.map (·.name)).Nodup

/-- A type where it is declared. -/
structure Declared where
  /-- The namespace that declares the type. -/
  space : String
  name : String
  type : Ty

/-- A type and the namespace in which its references are looked up. -/
structure Resolved where
  space : String
  name : Option String
  type : Ty

def qualify (space name : String) : String := space ++ "." ++ name

/-- The name of a declared type that is good in every namespace, see `lookupQualified`. -/
def Declared.qualified (d : Declared) : String := qualify d.space d.name

def Declared.resolved (d : Declared) : Resolved := ⟨d.space, some d.name, d.type⟩

def Resolved.qualified? (t : Resolved) : Option String := t.name.map (qualify t.space)

namespace Registry

/-- The first name that has occurred before. -/
def firstRepeated (seen : List String) : List String → Option String
  | [] => none
  | n :: ns => if n ∈ seen then some n else firstRepeated (n :: seen) ns

theorem nodup_of_firstRepeated {seen names : List String} (h : firstRepeated seen names = none) :
    names.Nodup ∧ ∀ n ∈ names, n ∉ seen := by
  induction names generalizing seen with
  | nil => simp
  | cons n ns ih =>
    by_cases hn : n ∈ seen
    · simp [firstRepeated, hn] at h
    · simp only [firstRepeated, hn, if_false] at h
      obtain ⟨hnd, hns⟩ := ih h
      refine ⟨List.nodup_cons.2 ⟨fun hm => hns n hm (by simp), hnd⟩, fun m hm => ?_⟩
      rcases List.mem_cons.1 hm with rfl | hm
      · exact hn
      · exact fun hs => hns m hm (List.mem_cons_of_mem _ hs)

def ofList (namespaces : List Namespace) : Except GenerateError Registry :=
  match h : firstRepeated [] (namespaces.map (·.name)) with
  | some name => .error (.duplicateNamespace name)
  | none => .ok ⟨namespaces, (nodup_of_firstRepeated h).1⟩

def namespace? (r : Registry) (name : String) : Option Namespace :=
  r.namespaces.find? (·.name == name)

def getNamespace (r : Registry) (name : String) : Except GenerateError Namespace :=
  match r.namespace? name with
  | some ns => .ok ns
  | none => .error (.unknownNamespace name)

/-! ## Finding types -/

/-- The parts of a qualified name, which its last point divides. -/
def splitName (target : String) : Option (String × String) :=
  match target.toList.reverse.span (· ≠ '.') with
  | (_, []) => none
  | (name, _ :: space) => some (String.ofList space.reverse, String.ofList name.reverse)

/-- The type that a namespace declares under a name. -/
def declared? (ns : Namespace) (name : String) : Option Declared :=
  (ns.types.get? name).map fun t => ⟨ns.name, name, t⟩

/-- Finds a type by its qualified name, as `splitName` divides it. -/
def lookupQualified (r : Registry) (target : String) : Option Declared := do
  let (space, name) ← splitName target
  let ns ← r.namespace? space
  declared? ns name

/-- Finds the type that `target` names in the namespace `space`: one of its own types, or one that
is named with its namespace. -/
def lookup (r : Registry) (space target : String) : Except GenerateError Declared := do
  let home ← r.getNamespace space
  match declared? home target <|> r.lookupQualified target with
  | some d => .ok d
  | none => .error (.danglingReference space target)

/-- The qualified names of all types. -/
def qualifiedNames (r : Registry) : List String :=
  r.namespaces.flatMap fun ns => ns.types.keys.map (qualify ns.name)

theorem mem_of_namespace? {r : Registry} {name : String} {ns : Namespace}
    (h : r.namespace? name = some ns) : ns ∈ r.namespaces :=
  List.mem_of_find?_eq_some h

theorem mem_keys_of_lookup {α : Type} {es : List (String × α)} {key : String} {a : α}
    (h : es.lookup key = some a) : key ∈ es.map (·.1) := by
  induction es with
  | nil => simp at h
  | cons e es ih =>
    obtain ⟨k, v⟩ := e
    rw [List.lookup_cons] at h
    by_cases hk : key = k
    · simp [hk]
    · have hk' : (key == k) = false := by simpa using hk
      simp only [hk'] at h
      exact List.mem_cons_of_mem _ (ih h)

theorem qualified_mem_of_declared? {r : Registry} {ns : Namespace} (hns : ns ∈ r.namespaces)
    {name : String} {d : Declared} (h : declared? ns name = some d) :
    d.qualified ∈ r.qualifiedNames := by
  obtain ⟨t, ht, rfl⟩ := Option.map_eq_some_iff.1 h
  exact List.mem_flatMap.2 ⟨ns, hns, List.mem_map.2 ⟨name, mem_keys_of_lookup ht, rfl⟩⟩

theorem qualified_mem_of_lookup {r : Registry} {space target : String} {d : Declared}
    (h : r.lookup space target = .ok d) : d.qualified ∈ r.qualifiedNames := by
  unfold lookup getNamespace at h
  cases hns : r.namespace? space with
  | none => simp [hns, bind, Except.bind] at h
  | some home =>
    simp only [hns, bind, Except.bind] at h
    cases hd : declared? home target with
    | some d' =>
      simp only [hd] at h
      cases h
      exact qualified_mem_of_declared? (mem_of_namespace? hns) hd
    | none =>
      cases hq : r.lookupQualified target with
      | none => simp [hd, hq] at h
      | some d' =>
        simp only [hd, hq] at h
        cases h
        simp only [lookupQualified, Option.bind_eq_bind, Option.bind_eq_some_iff] at hq
        obtain ⟨⟨s, n⟩, -, ns, hs, hd'⟩ := hq
        exact qualified_mem_of_declared? (mem_of_namespace? hs) hd'

/-! ## Following references -/

/-- How many of the names are not among those seen: what decreases along `chase`. -/
def unseen (names seen : List String) : Nat := names.countP (· ∉ seen)

theorem unseen_append_le (names seen more : List String) :
    unseen names (seen ++ more) ≤ unseen names seen :=
  List.countP_mono_left fun n _ hn => by
    simp only [decide_eq_true_eq, List.mem_append, not_or] at hn ⊢
    exact hn.1

theorem unseen_append_lt {names seen : List String} {n : String} (hn : n ∈ names) (hs : n ∉ seen) :
    unseen names (seen ++ [n]) < unseen names seen := by
  induction names with
  | nil => simp at hn
  | cons m ms ih =>
    have hle := unseen_append_le ms seen [n]
    unfold unseen at *
    by_cases hm : m = n
    · subst hm
      simp only [List.countP_cons, List.mem_append, List.mem_singleton, or_true, not_true,
        decide_false, hs, not_false_eq_true, decide_true, if_true]
      simpa using Nat.lt_succ_of_le hle
    · have hlt := ih ((List.mem_cons.1 hn).resolve_left fun h => hm h.symm)
      have hhead : decide (m ∉ seen ++ [n]) = decide (m ∉ seen) := by simp [hm]
      rw [List.countP_cons, List.countP_cons, hhead]
      omega

/-- Follows a reference to the first type that is none itself. `seen` are the types on the way. -/
def chase (r : Registry) (seen : List String) (space target : String) : Except GenerateError Declared :=
  match _ : r.lookup space target with
  | .error e => .error e
  | .ok d =>
    if d.qualified ∈ seen then .error (.referenceCycle (seen ++ [d.qualified]))
    else
      match d.type.kind with
      | .reference next => chase r (seen ++ [d.qualified]) d.space next
      | _ => .ok d
termination_by unseen r.qualifiedNames seen
decreasing_by exact unseen_append_lt (qualified_mem_of_lookup ‹_›) ‹_›

/-- Follows a type to one that is no reference, by `chase` if it is one. -/
def follow (r : Registry) (space : String) (t : Ty) : Except GenerateError Resolved :=
  match t.kind with
  | .reference target => (r.chase [] space target).map Declared.resolved
  | _ => .ok ⟨space, t.name, t⟩

end Registry

end Interchange
