/-! # Dictionaries with string keys

A `Dict` is the list of its entries, in the order in which the keys were first entered. Distinct
keys are the separate predicate `Distinct`, which every operation keeps (`Distinct.insert`,
`distinct_ofList`): `put` writes over an entry in place and appends a new key.
-/

namespace Interchange

structure Dict (α : Type) where
  entries : List (String × α) := []
  deriving Repr, DecidableEq

namespace Dict

variable {α β : Type}

instance : EmptyCollection (Dict α) := ⟨⟨[]⟩⟩

instance : Inhabited (Dict α) := ⟨∅⟩

def keys (d : Dict α) : List String := d.entries.map (·.1)

def values (d : Dict α) : List α := d.entries.map (·.2)

def size (d : Dict α) : Nat := d.entries.length

def isEmpty (d : Dict α) : Bool := d.entries.isEmpty

def get? (d : Dict α) (key : String) : Option α := d.entries.lookup key

def contains (d : Dict α) (key : String) : Bool := (d.get? key).isSome

/-- Writes `value` over the entry of `key`, or appends it when there is none. -/
def put (key : String) (value : α) : List (String × α) → List (String × α)
  | [] => [(key, value)]
  | e :: es => if e.1 = key then (key, value) :: es else e :: put key value es

def insert (d : Dict α) (key : String) (value : α) : Dict α := ⟨put key value d.entries⟩

/-- Enters the pairs in turn by `insert`: a repeated key keeps its first place and takes its last
value. -/
def ofList (entries : List (String × α)) : Dict α :=
  entries.foldl (fun d e => d.insert e.1 e.2) ∅

def map (f : α → β) (d : Dict α) : Dict β := ⟨d.entries.map fun e => (e.1, f e.2)⟩

/-- No key is entered twice. -/
def Distinct (d : Dict α) : Prop := d.keys.Nodup

/-- Equal as maps, up to `same` on the values: as many entries, and each entry of `a` has its
counterpart in `b`. -/
def sameBy (same : α → α → Bool) (a b : Dict α) : Bool :=
  a.size == b.size && a.entries.all fun e =>
    match b.get? e.1 with
    | some v => same e.2 v
    | none => false

@[simp] theorem get?_empty (key : String) : (∅ : Dict α).get? key = none := rfl

theorem lookup_put_self (key : String) (value : α) (es : List (String × α)) :
    (put key value es).lookup key = some value := by
  induction es with
  | nil => simp [put]
  | cons e es ih =>
    obtain ⟨k, v⟩ := e
    by_cases h : k = key
    · simp [put, h]
    · have h' : (key == k) = false := by simpa using fun c : key = k => h c.symm
      simp [put, h, List.lookup_cons, h', ih]

theorem lookup_put_ne {key k : String} (value : α) (hk : k ≠ key) (es : List (String × α)) :
    (put key value es).lookup k = es.lookup k := by
  induction es with
  | nil => simp [put, hk]
  | cons e es ih =>
    obtain ⟨k', v⟩ := e
    by_cases h : k' = key
    · have hk' : (k == key) = false := by simpa using hk
      simp [put, h, List.lookup_cons, hk']
    · simp [put, h, List.lookup_cons, ih]

@[simp] theorem get?_insert_self (d : Dict α) (key : String) (value : α) :
    (d.insert key value).get? key = some value :=
  lookup_put_self key value d.entries

theorem get?_insert_ne (d : Dict α) {key k : String} (value : α) (hk : k ≠ key) :
    (d.insert key value).get? k = d.get? k :=
  lookup_put_ne value hk d.entries

theorem keys_put (key : String) (value : α) (es : List (String × α)) :
    (put key value es).map (·.1) =
      if key ∈ es.map (·.1) then es.map (·.1) else es.map (·.1) ++ [key] := by
  induction es with
  | nil => simp [put]
  | cons e es ih =>
    by_cases h : e.1 = key
    · simp [put, h]
    · have h' : key ≠ e.1 := fun c => h c.symm
      simp only [put, h, if_false, List.map_cons, ih, List.mem_cons, h', false_or]
      split <;> simp

theorem keys_insert (d : Dict α) (key : String) (value : α) :
    (d.insert key value).keys = if key ∈ d.keys then d.keys else d.keys ++ [key] :=
  keys_put key value d.entries

theorem Distinct.insert {d : Dict α} (h : d.Distinct) (key : String) (value : α) :
    (d.insert key value).Distinct := by
  unfold Distinct
  rw [keys_insert]
  split
  · exact h
  · rename_i hn
    refine List.nodup_append.2 ⟨h, by simp, ?_⟩
    rintro a ha b hb rfl
    simp only [List.mem_singleton] at hb
    exact hn (hb ▸ ha)

theorem distinct_empty : (∅ : Dict α).Distinct := List.nodup_nil

theorem distinct_ofList (entries : List (String × α)) : (ofList entries).Distinct := by
  unfold ofList
  suffices ∀ d : Dict α, d.Distinct →
      (entries.foldl (fun d e => d.insert e.1 e.2) d).Distinct from this ∅ distinct_empty
  induction entries with
  | nil => exact fun _ h => h
  | cons e es ih => exact fun d h => ih _ (h.insert e.1 e.2)

theorem sizeOf_lookup_lt [SizeOf α] (es : List (String × α)) (key : String) :
    sizeOf (es.lookup key) < 1 + sizeOf es := by
  induction es with
  | nil => simp
  | cons e es ih =>
    obtain ⟨k, v⟩ := e
    rw [List.lookup_cons]
    split <;> simp <;> omega

/-- Looking a key up yields something smaller than the dictionary, so recursion may go through
`get?`. -/
theorem sizeOf_get?_lt [SizeOf α] (d : Dict α) (key : String) : sizeOf (d.get? key) < sizeOf d := by
  have h := sizeOf_lookup_lt d.entries key
  cases d
  simpa [get?] using h

theorem sizeOf_entry_lt [SizeOf α] {d : Dict α} {e : String × α} (h : e ∈ d.entries) :
    sizeOf e.2 < sizeOf d := by
  have := List.sizeOf_lt_of_mem h
  cases d; cases e
  simp at *
  omega

end Dict

end Interchange
