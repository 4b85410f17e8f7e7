import WatchHistory.SortedMap

/-!
# The store

The store is one map from keys to row texts. Tables and partitions are the rows whose keys start
with their stem, and a stem stands for the range of keys from the stem itself up to the stem with
the greatest character behind it.

* `Store.get?` is the view of a store: `get?_insert`, `get?_erase` and `get?_without` say what each
  change does to it, and `ext_get?` that it determines the store.
* `Store.under` is the rows of a stem, and `Store.count`, `Store.firstKey?`, `Store.lastKey?` and
  `Store.dropUnder` are what can be asked of them and done to them: `mem_under`, `get?_dropUnder`.
* `Store.purge` drops them in batches, each a state of its own in `Store.batches`.
-/

set_option autoImplicit false

namespace WatchHistory

/-- The rows of every table, by key. A row may be any text, whether it can be read as a row of its
table or not; a damaged row of bytes that are not UTF-8 is not represented. -/
structure Store where
  rows : SortedMap String String
deriving DecidableEq

namespace Store

def empty : Store := ⟨.empty⟩

instance : Inhabited Store := ⟨empty⟩

/-- The row text under a key. -/
def get? (s : Store) (key : String) : Option String := s.rows.get? key

def insert (s : Store) (key row : String) : Store := ⟨s.rows.insert key row⟩

def erase (s : Store) (key : String) : Store := ⟨s.rows.erase key⟩

/-- The rows whose keys are none of the given ones. -/
def without (s : Store) (keys : List String) : Store :=
  ⟨s.rows.filter fun key => !keys.contains key⟩

/-! ## The view -/

@[simp] theorem get?_empty (key : String) : empty.get? key = none := SortedMap.get?_empty key

theorem get?_insert (s : Store) (key row x : String) :
    (s.insert key row).get? x = if x = key then some row else s.get? x :=
  SortedMap.get?_insert ..

theorem get?_erase (s : Store) (key x : String) :
    (s.erase key).get? x = if x = key then none else s.get? x :=
  SortedMap.get?_erase ..

theorem get?_without (s : Store) (keys : List String) (x : String) :
    (s.without keys).get? x = if x ∈ keys then none else s.get? x := by
  unfold get? without
  rw [SortedMap.get?_filter]
  simp

/-- Stores in which every look-up agrees are equal. -/
theorem ext_get? {s t : Store} (h : ∀ key, s.get? key = t.get? key) : s = t := by
  cases s; cases t
  exact congrArg mk (SortedMap.ext_get? h)

/-! ## Ranges of keys -/

/-- The greatest character. -/
def sentinel : Char := Char.ofNat 0x10ffff

/-- The end of the range of a stem. -/
def stemEnd (stem : String) : String := stem.push sentinel

/-- The rows from the key `lower` on, before the key `upper`. -/
def between (s : Store) (lower upper : String) : List (String × String) :=
  s.rows.entries.filter fun row => !decide (row.1 < lower) && decide (row.1 < upper)

/-- The rows in the range of a stem. -/
def under (s : Store) (stem : String) : List (String × String) := s.between stem (stemEnd stem)

def count (s : Store) (stem : String) : Nat := (s.under stem).length

def firstKey? (s : Store) (stem : String) : Option String := (s.under stem).head?.map Prod.fst

def lastKey? (s : Store) (stem : String) : Option String := (s.under stem).getLast?.map Prod.fst

theorem mem_between {s : Store} {lower upper key row : String} :
    (key, row) ∈ s.between lower upper ↔ s.get? key = some row ∧ ¬ key < lower ∧ key < upper := by
  simp only [between, List.mem_filter, SortedMap.mem_iff_get?, Bool.and_eq_true,
    Bool.not_eq_true', decide_eq_false_iff_not, decide_eq_true_eq, get?]

/-- The rows of a stem are those of the store with a key in its range. -/
theorem mem_under {s : Store} {stem key row : String} :
    (key, row) ∈ s.under stem ↔ s.get? key = some row ∧ ¬ key < stem ∧ key < stemEnd stem :=
  mem_between

theorem pairwise_between (s : Store) (lower upper : String) :
    (s.between lower upper).Pairwise fun a b => a.1 < b.1 :=
  s.rows.ascending.filter _

/-! ## Dropping rows -/

/-- The keys that a batch of at most `limit` rows drops. -/
def doomed (s : Store) (stem : String) (limit : Nat) : List String :=
  ((s.under stem).take limit).map Prod.fst

/-- Drop every row of a stem; also how many there were. -/
def dropUnder (s : Store) (stem : String) : Store × Nat :=
  let keys := (s.under stem).map Prod.fst
  (s.without keys, keys.length)

/-- Dropping a stem leaves the rows outside its range, as they were. -/
theorem get?_dropUnder (s : Store) (stem x : String) :
    (s.dropUnder stem).1.get? x = if ¬ x < stem ∧ x < stemEnd stem then none else s.get? x := by
  simp only [dropUnder, get?_without]
  cases hx : s.get? x with
  | none => simp
  | some row =>
    have hmem : x ∈ (s.under stem).map Prod.fst ↔ ¬ x < stem ∧ x < stemEnd stem := by
      simp [mem_under, hx]
    simp only [hmem]

theorem dropUnder_snd (s : Store) (stem : String) : (s.dropUnder stem).2 = s.count stem := by
  simp [dropUnder, count]

theorem size_without_lt {s : Store} {keys : List String} {key : String} {row : String}
    (hr : (key, row) ∈ s.rows.entries) (hk : key ∈ keys) :
    (s.without keys).rows.size < s.rows.size := by
  unfold without SortedMap.size SortedMap.filter
  exact List.length_filter_lt_length_iff_exists.mpr ⟨(key, row), hr, by simp [hk]⟩

theorem size_without_doomed_lt {s : Store} {stem : String} {limit : Nat}
    (h : 0 < (s.doomed stem limit).length) :
    (s.without (s.doomed stem limit)).rows.size < s.rows.size := by
  obtain ⟨key, hk⟩ := List.exists_mem_of_length_pos h
  obtain ⟨⟨_, row⟩, hr, rfl⟩ := List.mem_map.mp hk
  exact size_without_lt (List.mem_filter.mp (List.mem_of_mem_take hr)).1 hk

/-- What each batch of a purge leaves, with the number of rows that it drops. The last batch is the
first one that finds less than its full number; a batch has at least one row. -/
def batches (s : Store) (stem : String) (size : Nat) : List (Store × Nat) :=
  let keys := s.doomed stem (max size 1)
  let left := s.without keys
  if _h : keys.length < max size 1 then [(left, keys.length)]
  else (left, keys.length) :: left.batches stem size
termination_by s.rows.size
decreasing_by
  exact size_without_doomed_lt (Nat.lt_of_lt_of_le (Nat.le_max_right size 1) (Nat.not_lt.mp _h))

/-- Drop every row of a stem in batches; also how many there were. -/
def purge (s : Store) (stem : String) (size : Nat) : Store × Nat :=
  let states := s.batches stem size
  ((states.getLast?.map Prod.fst).getD s, states.foldr (fun state n => state.2 + n) 0)

/-! ## Change -/

/-- The rows that are not in an `earlier` store, or not with the same text. -/
def changedSince (s earlier : Store) : List (String × String) :=
  s.rows.entries.filter fun row => earlier.get? row.1 ≠ some row.2

end Store

end WatchHistory
