import WatchHistory.Proofs.Key.Dispatch
import WatchHistory.Proofs.SortedMap
import WatchHistory.Proofs.Store.Bounds

/-!
# The partitions of a store

* `mem_keys_histogram`: the partitions that the histogram counts are those that hold a row.
* `Store.outside` is what is left of a store without some of its partitions (`get?_outside`).
* `size_dropUnder_add`: the rows that are counted as dropped are those that are gone.
-/

set_option autoImplicit false

namespace WatchHistory

open WatchHistory.Partition

namespace Store

/-- The partition of a key, if it is complete. -/
def partitionOf? (text : String) : Option String :=
  (AnyKey.parse text).toOption.map AnyKey.partition

theorem partitionOf?_eq_some_iff {text p : String} :
    partitionOf? text = some p ↔ ∃ t, Filed t p text := by
  unfold partitionOf?
  constructor
  · intro h
    obtain ⟨⟨t, k⟩, hk, rfl⟩ := Option.map_eq_some_iff.mp h
    refine ⟨t, k, AnyKey.parse_eq_ok_iff.mp ?_, rfl⟩
    cases hparse : AnyKey.parse text with
    | error e => rw [hparse] at hk; cases hk
    | ok k' => rw [hparse] at hk; cases hk; rfl
  · rintro ⟨t, k, hk, rfl⟩
    rw [AnyKey.parse_eq_ok_iff.mpr hk]
    rfl

/-- Whether a row of any table is in the partition. -/
def HoldsAny (s : Store) (p : String) : Prop := ∃ t, s.Holds t p

theorem holdsAny_iff {s : Store} {p : String} :
    s.HoldsAny p ↔ ∃ key row, s.get? key = some row ∧ partitionOf? key = some p := by
  simp only [HoldsAny, Holds, partitionOf?_eq_some_iff]
  constructor
  · rintro ⟨t, key, row, hrow, hfiled⟩
    exact ⟨key, row, hrow, t, hfiled⟩
  · rintro ⟨key, row, hrow, t, hfiled⟩
    exact ⟨t, key, row, hrow, hfiled⟩

/-! ## The histogram -/

/-- Count the partition of a key. -/
def countKey (found : SortedMap String PartitionCount) (text : String) :
    SortedMap String PartitionCount :=
  match AnyKey.parse text with
  | .ok key => found.alter key.partition ⟨0, .empty⟩ (·.add key.table)
  | .error _ => found

theorem histogram_eq (s : Store) : s.histogram = s.rows.keys.foldl countKey .empty := rfl

theorem mem_keys_foldl_countKey {p : String} (texts : List String)
    (found : SortedMap String PartitionCount) :
    p ∈ (texts.foldl countKey found).keys ↔
      p ∈ found.keys ∨ ∃ text ∈ texts, partitionOf? text = some p := by
  induction texts generalizing found with
  | nil => simp
  | cons text texts ih =>
    rw [List.foldl_cons, ih]
    simp only [List.mem_cons, exists_eq_or_imp]
    rw [← or_assoc]
    apply or_congr_left
    unfold countKey partitionOf?
    cases AnyKey.parse text with
    | error e => simp [Except.toOption]
    | ok key =>
      rw [SortedMap.mem_keys_alter, or_comm]
      simp [Except.toOption, eq_comm]

/-- The partitions of the histogram are those that hold a row. -/
theorem mem_keys_histogram {s : Store} {p : String} : p ∈ s.histogram.keys ↔ s.HoldsAny p := by
  have hempty : p ∉ (SortedMap.empty : SortedMap String PartitionCount).keys := by
    simp [SortedMap.keys, SortedMap.empty]
  rw [histogram_eq, mem_keys_foldl_countKey, or_iff_right hempty, holdsAny_iff]
  constructor
  · rintro ⟨key, hkey, hp⟩
    obtain ⟨row, hrow⟩ := SortedMap.mem_keys_iff.mp hkey
    exact ⟨key, row, hrow, hp⟩
  · rintro ⟨key, row, hrow, hp⟩
    exact ⟨key, SortedMap.mem_keys_iff.mpr ⟨row, hrow⟩, hp⟩

/-! ## Leaving partitions out -/

/-- The rows that are in none of the given partitions. -/
def outside (s : Store) (partitions : List String) : Store :=
  ⟨s.rows.filter fun key => !partitions.any fun p => partitionOf? key = some p⟩

theorem get?_outside (s : Store) (partitions : List String) (x : String) :
    (s.outside partitions).get? x =
      if ∃ p ∈ partitions, partitionOf? x = some p then none else s.get? x := by
  rw [get?, outside, SortedMap.get?_filter]
  by_cases h : ∃ p ∈ partitions, partitionOf? x = some p
  · rw [if_pos h, if_neg]
    simpa using h
  · rw [if_neg h, if_pos, get?]
    simpa using h

theorem outside_nil (s : Store) : s.outside [] = s :=
  ext_get? fun x => by simp [get?_outside]

theorem outside_outside (s : Store) (p : String) (ps : List String) :
    (s.outside [p]).outside ps = s.outside (p :: ps) := by
  refine ext_get? fun x => ?_
  simp only [get?_outside, List.mem_cons, List.not_mem_nil, or_false, exists_eq_or_imp,
    exists_eq_left]
  by_cases hp : partitionOf? x = some p <;> simp [hp]

theorem get?_of_get?_outside {s : Store} {ps : List String} {key row : String}
    (h : (s.outside ps).get? key = some row) : s.get? key = some row := by
  rw [get?_outside] at h
  split at h
  · cases h
  · exact h

theorem holdsAny_outside {s : Store} {p q : String} :
    (s.outside [p]).HoldsAny q ↔ q ≠ p ∧ s.HoldsAny q := by
  simp only [holdsAny_iff, get?_outside, List.mem_singleton, exists_eq_left]
  constructor
  · rintro ⟨key, row, hrow, hq⟩
    split at hrow
    · cases hrow
    · next hne => exact ⟨fun h => hne (h ▸ hq), key, row, hrow, hq⟩
  · rintro ⟨hne, key, row, hrow, hq⟩
    exact ⟨key, row, by rw [if_neg (by simp [hq, hne]), hrow], hq⟩

theorem size_outside_lt {s : Store} {p : String} (h : s.HoldsAny p) :
    (s.outside [p]).rows.size < s.rows.size := by
  obtain ⟨key, row, hrow, hp⟩ := holdsAny_iff.mp h
  unfold outside SortedMap.size SortedMap.filter
  exact List.length_filter_lt_length_iff_exists.mpr
    ⟨(key, row), SortedMap.mem_iff_get?.mpr hrow, by simp [hp]⟩

theorem size_dropUnder_add (s : Store) (stem : String) :
    (s.dropUnder stem).1.rows.size + (s.dropUnder stem).2 = s.rows.size := by
  have hcontains : ∀ row ∈ s.rows.entries,
      ((s.under stem).map Prod.fst).contains row.1 =
        (!decide (row.1 < stem) && decide (row.1 < stemEnd stem)) := by
    intro row hrow
    rw [Bool.eq_iff_iff, List.contains_iff_mem]
    constructor
    · intro hmem
      obtain ⟨⟨key, text⟩, hunder, hkey⟩ := List.mem_map.mp hmem
      cases hkey
      simpa using (mem_under.mp hunder).2
    · intro hrange
      exact List.mem_map.mpr ⟨row, List.mem_filter.mpr ⟨hrow, hrange⟩, rfl⟩
  have hkept : (s.dropUnder stem).1.rows.size =
      (s.rows.entries.filter fun row =>
        !(!decide (row.1 < stem) && decide (row.1 < stemEnd stem))).length := by
    unfold dropUnder without SortedMap.size SortedMap.filter
    refine congrArg List.length (List.filter_congr fun row hrow => ?_)
    exact congrArg not (hcontains row hrow)
  have hgone : (s.dropUnder stem).2 = (s.rows.entries.filter fun row =>
      !decide (row.1 < stem) && decide (row.1 < stemEnd stem)).length := by
    rw [dropUnder_snd]
    rfl
  rw [hkept, hgone, SortedMap.size, ← List.countP_eq_length_filter, ← List.countP_eq_length_filter,
    Nat.add_comm, List.length_eq_countP_add_countP fun row =>
      !decide (row.1 < stem) && decide (row.1 < stemEnd stem)]
  refine congrArg (_ + ·) (List.countP_congr fun row _ => ?_)
  rw [decide_eq_true_iff, Bool.not_eq_true', Bool.not_eq_true]

end Store

end WatchHistory
