import WatchHistory.Proofs.Store.Rows

/-!
# Stems as prefixes

The range of a stem stands for the keys that start with the stem. It is short of them by the keys in
which the greatest character comes next: the end of the range is a key that starts with the stem,
and so is every continuation of it (`mem_range_iff_isPrefix`). What that means for the maintenance
of a stem:

* `count_add_length_startingWith`: how many of the keys that start with a stem are not counted.
* `startingWith_dropUnder`: which of them are left when the stem is dropped.
* `dropUnder_spec`: counting and dropping a stem are about the keys that start with it
  (`Exact`) exactly if none of them goes on with the greatest character.
-/

set_option autoImplicit false

namespace WatchHistory

theorem Text.mem_range_iff_isPrefix {stem x : String} :
    (¬ x < stem ∧ x < Store.stemEnd stem) ↔
      stem.toList <+: x.toList ∧ ¬ (Store.stemEnd stem).toList <+: x.toList := by
  rw [mem_range_iff]
  constructor
  · rintro ⟨rest, hrest, hplain⟩
    refine ⟨⟨rest, hrest.symm⟩, ?_⟩
    rintro ⟨more, hmore⟩
    rw [hrest, Store.stemEnd, String.toList_push, List.append_assoc,
      List.append_cancel_left_eq] at hmore
    exact hplain Store.sentinel (hmore ▸ rfl) rfl
  · rintro ⟨⟨rest, hrest⟩, hend⟩
    refine ⟨rest, hrest.symm, fun c hc => ?_⟩
    rintro rfl
    obtain ⟨more, rfl⟩ := List.head?_eq_some_iff.mp hc
    exact hend ⟨more, by rw [← hrest, Store.stemEnd, String.toList_push]; simp⟩

theorem Text.isPrefix_of_isPrefix_stemEnd {stem x : String}
    (h : (Store.stemEnd stem).toList <+: x.toList) : stem.toList <+: x.toList := by
  rw [Store.stemEnd, String.toList_push] at h
  exact (List.prefix_append _ _).trans h

namespace Store

variable {s : Store} {stem key : String}

/-- The keys that start with a text. -/
def startingWith (s : Store) (stem : String) : List String :=
  s.rows.keys.filter fun key => decide (stem.toList <+: key.toList)

theorem mem_startingWith :
    key ∈ s.startingWith stem ↔ (∃ row, s.get? key = some row) ∧ stem.toList <+: key.toList := by
  rw [startingWith, List.mem_filter, SortedMap.mem_keys_iff, decide_eq_true_iff]
  rfl

theorem pairwise_startingWith (s : Store) (stem : String) :
    (s.startingWith stem).Pairwise fun a b => a < b :=
  s.rows.pairwise_keys.filter _

theorem map_fst_under (s : Store) (stem : String) :
    (s.under stem).map Prod.fst =
      (s.startingWith stem).filter fun key => !decide ((stemEnd stem).toList <+: key.toList) := by
  refine SortedMap.keys_eq_of_mem (List.pairwise_map.mpr (s.pairwise_between _ _))
    ((s.pairwise_startingWith stem).filter _) fun key => ?_
  rw [List.mem_filter, mem_startingWith, Bool.not_eq_true', decide_eq_false_iff_not, and_assoc,
    ← Text.mem_range_iff_isPrefix, ← exists_and_right]
  simp only [← mem_under, List.mem_map, Prod.exists, exists_and_right, exists_eq_right]

theorem filter_startingWith (s : Store) (stem : String) :
    (s.startingWith stem).filter (fun key => decide ((stemEnd stem).toList <+: key.toList)) =
      s.startingWith (stemEnd stem) := by
  rw [startingWith, startingWith, List.filter_filter]
  refine List.filter_congr fun key _ => ?_
  rw [← Bool.decide_and]
  exact decide_eq_decide.mpr (and_iff_left_of_imp Text.isPrefix_of_isPrefix_stemEnd)

theorem count_add_length_startingWith (s : Store) (stem : String) :
    s.count stem + (s.startingWith (stemEnd stem)).length = (s.startingWith stem).length := by
  have hcount : s.count stem = ((s.under stem).map Prod.fst).length := by simp [count]
  rw [hcount, map_fst_under, ← filter_startingWith, ← List.countP_eq_length_filter,
    ← List.countP_eq_length_filter, Nat.add_comm]
  rw [List.length_eq_countP_add_countP fun key => decide ((stemEnd stem).toList <+: key.toList)]
  refine congrArg (_ + ·) (List.countP_congr fun key _ => ?_)
  simp

/-- `dropUnder` drops the rows whose keys start with the stem and not with the end of its range. -/
theorem get?_dropUnder_eq (s : Store) (stem key : String) :
    (s.dropUnder stem).1.get? key =
      if stem.toList <+: key.toList ∧ ¬ (stemEnd stem).toList <+: key.toList then none
      else s.get? key := by
  rw [get?_dropUnder]
  simp only [Text.mem_range_iff_isPrefix]

theorem startingWith_dropUnder (s : Store) (stem : String) :
    (s.dropUnder stem).1.startingWith stem = s.startingWith (stemEnd stem) := by
  refine SortedMap.keys_eq_of_mem (pairwise_startingWith _ _) (pairwise_startingWith _ _)
    fun key => ?_
  simp only [mem_startingWith, get?_dropUnder_eq]
  by_cases hend : (stemEnd stem).toList <+: key.toList
  · simp [hend, Text.isPrefix_of_isPrefix_stemEnd hend]
  · by_cases hstem : stem.toList <+: key.toList <;> simp [hend, hstem]

/-- Whether the maintenance of a stem is about the keys that start with it: they are what is
counted, what is told to be dropped and what is dropped, and every other row stays as it is. -/
structure Exact (s : Store) (stem : String) : Prop where
  counted : s.count stem = (s.startingWith stem).length
  told : (s.dropUnder stem).2 = (s.startingWith stem).length
  dropped : (s.dropUnder stem).1.startingWith stem = []
  kept : ∀ key, ¬ stem.toList <+: key.toList → (s.dropUnder stem).1.get? key = s.get? key

/-- **The maintenance of a stem.** What is counted and told to be dropped falls short of the number
of keys that start with the stem by those in which the greatest character comes next, and these are
left with their rows as they were. The maintenance is exact just where there are none. -/
theorem dropUnder_spec (s : Store) (stem : String) :
    s.count stem + (s.startingWith (stemEnd stem)).length = (s.startingWith stem).length ∧
    (s.dropUnder stem).2 = s.count stem ∧
    (s.dropUnder stem).1.startingWith stem = s.startingWith (stemEnd stem) ∧
    (∀ key, (s.dropUnder stem).1.get? key =
      if stem.toList <+: key.toList ∧ ¬ (stemEnd stem).toList <+: key.toList then none
      else s.get? key) ∧
    (s.Exact stem ↔
      ∀ key row, s.get? key = some row → ¬ (stemEnd stem).toList <+: key.toList) := by
  have hcount := s.count_add_length_startingWith stem
  have hleft := s.startingWith_dropUnder stem
  refine ⟨hcount, s.dropUnder_snd stem, hleft, s.get?_dropUnder_eq stem, ?_⟩
  have hnone : s.startingWith (stemEnd stem) = [] ↔
      ∀ key row, s.get? key = some row → ¬ (stemEnd stem).toList <+: key.toList := by
    simp only [List.eq_nil_iff_forall_not_mem, mem_startingWith, not_and, forall_exists_index]
  rw [← hnone]
  constructor
  · exact fun h => hleft.symm.trans h.dropped
  · intro hnil
    rw [hnil, List.length_nil, Nat.add_zero] at hcount
    refine ⟨hcount, (s.dropUnder_snd stem).trans hcount, hleft.trans hnil, fun key hkey => ?_⟩
    rw [get?_dropUnder_eq, if_neg fun h => hkey h.1]

/-- An object whose kind is the greatest character. -/
def greatestKind : Key .summary := ⟨Partition.idAt 0, String.singleton sentinel, "ns", "web", "u"⟩

/-- A row of an object whose kind is the greatest character is accepted, but the stem of its
partition is maintained as if it were not there. -/
theorem not_exact_greatestKind :
    ∃ s, Store.empty.set greatestKind Summary.initial = .ok s ∧
      s.startingWith "/ressum/000000000000/" = [greatestKind.render] ∧
      s.count "/ressum/000000000000/" = 0 ∧ s.dropUnder "/ressum/000000000000/" = (s, 0) ∧
      ¬ s.Exact "/ressum/000000000000/" := by
  have hset : Store.empty.set greatestKind Summary.initial =
      .ok (Store.empty.insert greatestKind.render (Table.write .summary Summary.initial)) :=
    set_eq_ok.mpr ⟨⟨greatestKind, eq_ok_of_toOption (by decide +kernel)⟩, rfl⟩
  refine ⟨_, hset, by decide +kernel, by decide +kernel, by decide +kernel, fun h => ?_⟩
  exact absurd h.counted (by decide +kernel)

end Store

end WatchHistory
