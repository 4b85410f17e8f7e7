import WatchHistory.Store.Basic

/-!
# Purging a stem in batches

The keys of a stem ascend, so a batch takes a front part of them and the next batch finds the rest
(`under_without_doomed`). Therefore the batches come, one after the other, to dropping longer and
longer front parts of one list (`batches_eq`).

* `purge_eq_dropUnder`: a purge comes to its end, and leaves and tells what one drop of the stem
  does. Between two batches some of those rows are gone, and nothing else has changed.
-/

set_option autoImplicit false

namespace WatchHistory.Store

/-! ## What a batch leaves -/

theorem doomed_eq (s : Store) (stem : String) (limit : Nat) :
    s.doomed stem limit = ((s.under stem).map Prod.fst).take limit := List.map_take

theorem length_doomed (s : Store) (stem : String) (limit : Nat) :
    (s.doomed stem limit).length = min limit (s.count stem) := by
  rw [doomed_eq, List.length_take, List.length_map, count]

theorem without_without (s : Store) (keys more : List String) :
    (s.without keys).without more = s.without (keys ++ more) := by
  refine ext_get? fun key => ?_
  simp only [get?_without, List.mem_append]
  by_cases hkeys : key ∈ keys <;> by_cases hmore : key ∈ more <;> simp [hkeys, hmore]

theorem under_without (s : Store) (keys : List String) (stem : String) :
    (s.without keys).under stem = (s.under stem).filter fun row => !keys.contains row.1 := by
  simp only [under, between, without, SortedMap.filter, List.filter_filter, Bool.and_comm]

theorem filter_contains_take {rows : List (String × String)}
    (hsorted : rows.Pairwise fun a b => a.1 < b.1) (limit : Nat) :
    rows.filter (fun row => !((rows.take limit).map Prod.fst).contains row.1) =
      rows.drop limit := by
  rw [← List.take_append_drop limit rows] at hsorted
  have hacross := (List.pairwise_append.mp hsorted).2.2
  have hfront : (rows.take limit).filter
      (fun row => !((rows.take limit).map Prod.fst).contains row.1) = [] := by
    refine List.filter_eq_nil_iff.mpr fun row hrow => ?_
    rw [List.contains_iff_mem.mpr (List.mem_map_of_mem hrow)]
    decide
  have hrest : (rows.drop limit).filter
      (fun row => !((rows.take limit).map Prod.fst).contains row.1) = rows.drop limit := by
    refine List.filter_eq_self.mpr fun row hrow => ?_
    rw [Bool.not_eq_true', ← Bool.not_eq_true, List.contains_iff_mem]
    intro hmem
    obtain ⟨first, hfirst, hsame⟩ := List.mem_map.mp hmem
    exact String.lt_irrefl _ (hsame ▸ hacross first hfirst row hrow)
  calc rows.filter _ = (rows.take limit ++ rows.drop limit).filter _ := by
        rw [List.take_append_drop]
    _ = rows.drop limit := by rw [List.filter_append, hfront, hrest, List.nil_append]

/-- A batch leaves the rows of a stem that are behind the ones it drops. -/
theorem under_without_doomed (s : Store) (stem : String) (limit : Nat) :
    (s.without (s.doomed stem limit)).under stem = (s.under stem).drop limit := by
  rw [under_without]
  exact filter_contains_take (s.pairwise_between stem (stemEnd stem)) limit

theorem count_without_doomed (s : Store) (stem : String) (limit : Nat) :
    (s.without (s.doomed stem limit)).count stem = s.count stem - limit := by
  rw [count, under_without_doomed, List.length_drop, count]

theorem without_doomed_doomed (s : Store) (stem : String) (first next : Nat) :
    (s.without (s.doomed stem first)).without
        ((s.without (s.doomed stem first)).doomed stem next) =
      s.without (s.doomed stem (first + next)) := by
  rw [without_without, doomed_eq (s.without _), under_without_doomed, doomed_eq, doomed_eq,
    List.map_drop, ← List.take_add]

theorem without_doomed_of_le {s : Store} {stem : String} {limit : Nat}
    (h : s.count stem ≤ limit) : s.without (s.doomed stem limit) = (s.dropUnder stem).1 := by
  rw [doomed_eq, List.take_of_length_le (by rwa [List.length_map])]
  rfl

/-! ## All batches -/

/-- **What each batch leaves and tells**: all but the last one drop their full number of rows, from
the front, and the last one drops the rest. -/
theorem batches_eq (s : Store) (stem : String) (size : Nat) :
    s.batches stem size = (List.range (s.count stem / max size 1 + 1)).map fun i =>
      (s.without (s.doomed stem ((i + 1) * max size 1)),
        min (max size 1) (s.count stem - i * max size 1)) := by
  induction s using batches.induct stem size with
  | case1 s keys hfew =>
    have hlength : keys.length = min (max size 1) (s.count stem) := length_doomed s stem _
    rw [batches, dif_pos hfew, Nat.div_eq_of_lt (by omega)]
    simp [length_doomed]
  | case2 s keys left hmany ih =>
    have hlength : keys.length = min (max size 1) (s.count stem) := length_doomed s stem _
    have hleft : left.count stem = s.count stem - max size 1 := count_without_doomed s stem _
    have hbatches : s.count stem / max size 1 = left.count stem / max size 1 + 1 := by
      rw [hleft, Nat.div_eq_sub_div (by omega) (by omega)]
    rw [batches, dif_neg hmany, ih, hbatches,
      List.range_succ_eq_map (n := left.count stem / max size 1 + 1), List.map_cons, List.map_map]
    refine List.cons_eq_cons.mpr ⟨by simp [length_doomed], List.map_congr_left fun i _ => ?_⟩
    -- The batch after `i` others on what is left is the one after `i + 1` others.
    show (left.without (left.doomed stem ((i + 1) * max size 1)),
        min (max size 1) (left.count stem - i * max size 1)) =
      (s.without (s.doomed stem ((i + 1 + 1) * max size 1)),
        min (max size 1) (s.count stem - (i + 1) * max size 1))
    rw [without_doomed_doomed, hleft, Nat.sub_sub, Nat.succ_mul (i + 1), Nat.succ_mul i,
      Nat.add_comm (max size 1), Nat.add_comm (max size 1)]

theorem foldr_batches (n count batches taken : Nat) :
    ((List.range batches).map fun i => min n (count - i * n)).foldr (· + ·) taken =
      min (batches * n) count + taken := by
  induction batches generalizing taken with
  | zero => simp
  | succ batches ih =>
    rw [List.range_succ, List.map_append, List.foldr_append, ih, Nat.succ_mul, List.map_singleton,
      List.foldr_cons, List.foldr_nil]
    omega

/-- **A purge in batches** of any size comes to its end, and leaves and tells what dropping the stem
does: the last batch is the first one without its full number of rows, so there is one more than
there are full ones. Each batch leaves the store without a front part of those rows. -/
theorem purge_eq_dropUnder (s : Store) (stem : String) (size : Nat) :
    s.purge stem size = s.dropUnder stem ∧
      (s.batches stem size).length = s.count stem / max size 1 + 1 ∧
      ∀ state ∈ s.batches stem size, ∃ gone,
        gone <+: (s.under stem).map Prod.fst ∧ state.1 = s.without gone := by
  have hbatches := s.batches_eq stem size
  refine ⟨?_, by rw [hbatches, List.length_map, List.length_range], fun state hstate => ?_⟩
  · have hall : s.count stem ≤ (s.count stem / max size 1 + 1) * max size 1 := by
      rw [Nat.succ_mul, Nat.mul_comm]
      exact Nat.le_of_lt (Nat.lt_mul_div_succ _ (by omega))
    have htold : (s.batches stem size).foldr (fun state n => state.2 + n) 0 =
        ((s.batches stem size).map Prod.snd).foldr (· + ·) 0 := List.foldr_map.symm
    refine Prod.ext_iff.mpr ⟨?_, ?_⟩
    · show ((s.batches stem size).getLast?.map Prod.fst).getD s = (s.dropUnder stem).1
      rw [hbatches, List.range_succ, List.map_append, List.map_singleton, List.getLast?_concat]
      exact without_doomed_of_le hall
    · show (s.batches stem size).foldr (fun state n => state.2 + n) 0 = (s.dropUnder stem).2
      rw [htold, hbatches, List.map_map, dropUnder_snd]
      exact (foldr_batches _ _ _ 0).trans (Nat.min_eq_right hall)
  · rw [hbatches] at hstate
    obtain ⟨i, -, rfl⟩ := List.mem_map.mp hstate
    exact ⟨_, doomed_eq s stem _ ▸ List.take_prefix _ _, rfl⟩

end WatchHistory.Store
