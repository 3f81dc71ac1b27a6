import Interchange.Value.Basic

/-! # Deep merging of dictionaries

Where both sides of `merge` hold a dictionary under a key the two are merged, everywhere else the
incoming value wins.
-/

namespace Interchange.Value

mutual

/-- The value to keep under a key that holds `old`, if anything, when `new` comes in. -/
def mergeOver (old : Option Value) : Value → Value
  | .dict ⟨new⟩ =>
    match old with
    | some (.dict d) => .dict (mergeEntries d new)
    | _ => .dict ⟨new⟩
  | new => new

def mergeEntries (d : Dict Value) : List (String × Value) → Dict Value
  | [] => d
  | (k, v) :: es => mergeEntries (d.insert k (mergeOver (d.get? k) v)) es

end

/-- Merges one entry into a dictionary: `mergeOver` decides what the key holds. -/
def mergeEntry (d : Dict Value) (key : String) (value : Value) : Dict Value :=
  d.insert key (mergeOver (d.get? key) value)

/-- Merges the entries of `new` into `old`, in their order. -/
def merge (old new : Dict Value) : Dict Value := mergeEntries old new.entries

end Interchange.Value
