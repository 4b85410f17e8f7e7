import Mathlib.Data.List.Basic
import WatchHistory.Proofs.Store.Previous
import WatchHistory.Proofs.Store.Rows

/-!
# Stores that agree on a table

`Agree t s s'`: the stores have the same rows under the stem of the table `t`. What is looked up in
that table is the same in both of them: single rows (`Agree.get_eq`), the first and the last key
(`Agree.minKey?_eq`, `Agree.maxKey?_eq`), the last key before another one (`Agree.previousKey_eq`)
and whatever is scanned (`Agree.scan_eq`). Writing a row of another table keeps agreement
(`Agree.of_set`).
-/

set_option autoImplicit false

namespace WatchHistory

open WatchHistory.Partition

namespace Store

/-- Whether two stores have the same rows of a table. -/
def Agree (t : Table) (s s' : Store) : Prop :=
  ∀ key rest, key.toList = t.stem.toList ++ rest → s.get? key = s'.get? key

variable {t u : Table} {s s' s'' : Store}

theorem Agree.refl (t : Table) (s : Store) : Agree t s s := fun _ _ _ => rfl

theorem Agree.symm (h : Agree t s s') : Agree t s' s := fun key rest hkey => (h key rest hkey).symm

theorem Agree.trans (h : Agree t s s') (h' : Agree t s' s'') : Agree t s s'' :=
  fun key rest hkey => (h key rest hkey).trans (h' key rest hkey)

theorem exists_stem_append {text : String} {k : Key t} (h : Key.parse t text = .ok k) :
    ∃ rest, text.toList = t.stem.toList ++ rest := by
  obtain ⟨rest, hrest⟩ := Filed.exists_append ⟨k, h, rfl⟩
  exact ⟨_, hrest⟩

theorem Agree.of_set {k : Key u} {row : u.Row} (h : s.set k row = .ok s') (hne : u ≠ t) :
    Agree t s s' := by
  intro key rest hkey
  rw [get?_set h]
  split
  · next hsame =>
    obtain ⟨⟨k', hk'⟩, -⟩ := set_eq_ok.mp h
    exact absurd (Filed.table_eq ⟨k', hsame ▸ hk', rfl⟩ hkey) hne
  · rfl

/-! ## Single rows -/

theorem Agree.get_eq (h : Agree t s s') (k : Key t) : s.get k = s'.get k := by
  cases hk : Key.parse t k.render with
  | error fault => simp [get, parseKey, hk, bind, Except.bind]
  | ok k' =>
    obtain ⟨rest, hrest⟩ := exists_stem_append hk
    exact get_congr (h _ _ hrest)

theorem Agree.find?_eq (h : Agree t s s') (k : Key t) : s.find? k = s'.find? k := by
  unfold find?
  rw [h.get_eq]

/-! ## Ranges -/

theorem between_congr {lower upper : String}
    (h : ∀ key, ¬ key < lower → key < upper → s.get? key = s'.get? key) :
    s.between lower upper = s'.between lower upper := by
  apply SortedMap.entries_eq_of_mem (pairwise_between _ _ _) (pairwise_between _ _ _)
  rintro ⟨key, row⟩
  rw [mem_between, mem_between]
  constructor
  · rintro ⟨hrow, hlower, hupper⟩
    exact ⟨h key hlower hupper ▸ hrow, hlower, hupper⟩
  · rintro ⟨hrow, hlower, hupper⟩
    exact ⟨(h key hlower hupper).symm ▸ hrow, hlower, hupper⟩

theorem Agree.under_eq (h : Agree t s s') {stem : String}
    (hstem : ∃ rest, stem.toList = t.stem.toList ++ rest) : s.under stem = s'.under stem := by
  obtain ⟨rest, hrest⟩ := hstem
  apply between_congr
  intro key hlower hupper
  obtain ⟨rest', hkey, -⟩ := Text.mem_range_iff.mp ⟨hlower, hupper⟩
  exact h key (rest ++ rest') (by rw [hkey, hrest, List.append_assoc])

theorem Agree.minKey?_eq (h : Agree t s s') : s.minKey? t = s'.minKey? t := by
  unfold minKey? firstKey?
  rw [h.under_eq ⟨[], by simp⟩]

theorem Agree.maxKey?_eq (h : Agree t s s') : s.maxKey? t = s'.maxKey? t := by
  unfold maxKey? lastKey?
  rw [h.under_eq ⟨[], by simp⟩]

theorem Agree.tableBounds_eq (h : Agree t s s') : s.tableBounds t = s'.tableBounds t := by
  unfold tableBounds
  rw [h.minKey?_eq, h.maxKey?_eq]

theorem exists_slashed_retarget {p : String} (hp : p.toList ≠ []) (k : Key t) :
    ∃ ss, (k.retarget p).render.toList = t.stem.toList ++ (p.toList ++ Key.slashed ss) := by
  refine ⟨Key.dropEmptyEnd [k.kind.toList, k.ns.toList, k.name.toList, Key.lastText t k.last], ?_⟩
  rw [Key.toList_render, Key.fields, Key.retarget, Key.dropEmptyEnd_cons hp]
  simp [Key.slashed, Table.stem]

theorem exists_stem_append_retarget {p : String} (hp : p.toList ≠ []) (k : Key t) :
    ∃ rest, (k.retarget p).render.toList = t.stem.toList ++ rest := by
  obtain ⟨ss, hss⟩ := exists_slashed_retarget hp k
  exact ⟨_, hss⟩

/-- Of any range, the rows under the stem of the table are the same in stores that `Agree` about
it. -/
theorem Agree.filter_between_eq (h : Agree t s s') {keep : String × String → Bool}
    (hkeep : ∀ row, keep row = true → ∃ rest, row.1.toList = t.stem.toList ++ rest)
    (lower upper : String) :
    (s.between lower upper).filter keep = (s'.between lower upper).filter keep := by
  refine SortedMap.entries_eq_of_mem ((pairwise_between _ _ _).filter _)
    ((pairwise_between _ _ _).filter _) fun ⟨key, row⟩ => ?_
  simp only [List.mem_filter, mem_between]
  refine and_congr_left fun hrow => and_congr_left fun _ => ?_
  obtain ⟨rest, hkey⟩ := hkeep _ hrow
  rw [h key rest hkey]

/-! ## The last key before another one -/

theorem findSome?_reverse {α β : Type} (f : α → Option β) (as : List α) :
    as.reverse.findSome? f = (as.filterMap f).getLast? := by
  rw [← List.head?_filterMap, List.filterMap_reverse, List.head?_reverse]

/-- `lastMatch?` finds the same in stores that `Agree`: what it finds is a key, so it is under the
stem of the table, whatever else is in the range. -/
theorem Agree.lastMatch?_eq (h : Agree t s s') (p : String) (comparator : Key t)
    (upper : Option String) :
    s.lastMatch? p comparator upper = s'.lastMatch? p comparator upper := by
  have hread : ∀ (lower upper : String) (s : Store),
      (s.between lower upper).filterMap (fun row =>
        if Key.covers lower row.1 then (Key.parse t row.1).toOption else none) =
      ((s.between lower upper).filter fun row => (Key.parse t row.1).toOption.isSome).filterMap
        fun row => if Key.covers lower row.1 then (Key.parse t row.1).toOption else none := by
    intro lower upper s
    rw [List.filterMap_filter]
    refine congrFun (congrArg List.filterMap (funext fun row => ?_)) _
    cases Key.parse t row.1 <;> simp [Except.toOption]
  unfold lastMatch?
  dsimp only
  rw [findSome?_reverse, findSome?_reverse, hread, hread, h.filter_between_eq]
  intro row hrow
  obtain ⟨k, hk⟩ := Option.isSome_iff_exists.mp hrow
  exact exists_stem_append (eq_ok_of_toOption hk)

theorem Agree.tablePartitions_eq (h : Agree t s s') (g : Granularity) :
    s.tablePartitions g t = s'.tablePartitions g t := by
  unfold tablePartitions
  rw [h.tableBounds_eq]

theorem Agree.previousKey_eq (h : Agree t s s') (g : Granularity) (k comparator : Key t) :
    s.previousKey g k comparator = s'.previousKey g k comparator := by
  unfold previousKey
  simp only [h.lastMatch?_eq, h.tablePartitions_eq]

/-! ## Scans -/

theorem Agree.covered_eq (h : Agree t s s') {p : String} (hp : p.toList ≠ [])
    (stem : Option (Key t)) : s.covered t p stem = s'.covered t p stem := by
  have hwhole : s.under (t.partitionStem p) = s'.under (t.partitionStem p) :=
    h.under_eq ⟨p.toList ++ ['/'], by simp [Table.partitionStem, Table.stem]⟩
  cases stem with
  | none => exact congrArg (List.filter _) hwhole
  | some stem => exact congrArg (List.filter _) (h.under_eq (exists_stem_append_retarget hp stem))

/-- Scans of a table are the same in stores that `Agree` about it, with all that they count. -/
theorem Agree.scan_eq (h : Agree t s s') (g : Granularity) (stem : Option (Key t))
    (key : String → Bool) (row : t.Row → Bool) (start stop : Instant) :
    s.scan g stem key row start stop = s'.scan g stem key row start stop := by
  unfold scan
  rw [h.tableBounds_eq]
  refine bind_congr fun bounds => ?_
  cases bounds with
  | none => rfl
  | some bounds =>
    dsimp only
    cases hids : g.between (latest (g.partitionOf start) bounds.1)
        (earliest (g.partitionOf stop) bounds.2) with
    | error e => rfl
    | ok ids =>
      refine congrArg Except.ok (List.foldl_ext _ _ _ fun found p hp => ?_)
      obtain ⟨second, rfl⟩ := g.exists_idAt_of_mem_between hids hp
      rw [h.covered_eq (ranked_idAt second).1]

end Store

end WatchHistory
