import WatchHistory.Ingest.EventCount
import WatchHistory.Proofs.SortedMap

/-!
# Counts spread over minutes

Nothing is lost on the way from the count of a delta to the minutes of each partition:

* `sum_distribute`: the parts of a value add up to it.
* `sum_spread_of_le`, `sum_spread`: the counts of the minutes add up to the count of the delta, if
  it does not end before it starts.
* `sumBy_foldMinutes` and `sumBy_groupMinutes`: so do the counts after the last minutes are folded
  into one, and after they are grouped by partition.

`mem_spread` and `mem_entries_foldMinutes` tell which minutes these are.
-/

set_option autoImplicit false

namespace WatchHistory

/-! ## Equal parts -/

namespace EventDelta

theorem sum_range_ite (n rest : Nat) (q : Int) :
    ((List.range n).map fun i : Nat => if (i : Int) < (rest : Int) then q + 1 else q).sum =
      n * q + (min n rest : Nat) := by
  induction n with
  | zero => simp
  | succ n ih =>
    rw [List.range_succ, List.map_append, List.sum_append, ih, Int.natCast_add, Int.add_mul]
    simp only [List.map_cons, List.map_nil, List.sum_cons, List.sum_nil, Int.ofNat_lt]
    split
    · next h => omega
    · next h => omega

theorem sum_distribute {value : Int} (hvalue : 0 ≤ value) {parts : Nat} (hparts : 0 < parts) :
    (distribute value parts).sum = value := by
  obtain ⟨n, rfl⟩ := Int.eq_ofNat_of_zero_le hvalue
  have hlt := Nat.mod_lt n hparts
  have hdiv := Nat.div_add_mod n parts
  unfold distribute
  rw [← Int.ofNat_tmod, ← Int.ofNat_tdiv, sum_range_ite, Nat.min_eq_right (Nat.le_of_lt hlt)]
  exact_mod_cast hdiv

theorem nonneg_of_mem_distribute {value : Int} (hvalue : 0 ≤ value) {parts : Nat} {count : Int}
    (h : count ∈ distribute value parts) : 0 ≤ count := by
  obtain ⟨i, -, rfl⟩ := List.mem_map.mp h
  have hdiv : 0 ≤ value.tdiv parts := Int.tdiv_nonneg hvalue (Int.natCast_nonneg parts)
  split <;> omega

theorem nonpos_of_mem_distribute {value : Int} (hvalue : value ≤ 0) {parts : Nat} {count : Int}
    (h : count ∈ distribute value parts) : count ≤ 0 := by
  obtain ⟨i, -, rfl⟩ := List.mem_map.mp h
  have hneg : 0 ≤ -value := by omega
  have hdiv := Int.tdiv_nonneg hneg (Int.natCast_nonneg parts)
  have hmod := Int.tmod_nonneg (parts : Int) hneg
  rw [Int.neg_tdiv] at hdiv
  rw [Int.neg_tmod] at hmod
  split <;> omega

/-! ## Minutes -/

theorem dvd_nearestMinute (t : Instant) : 60 ∣ nearestMinute t := by
  unfold nearestMinute
  dsimp only
  split <;> omega

theorem nearestMinute_mono {a b : Instant} (h : a ≤ b) : nearestMinute a ≤ nearestMinute b := by
  have hle : ¬ (b.seconds < a.seconds ∨ (¬ a.seconds < b.seconds ∧ b.nanos < a.nanos)) := h
  have hleap := a.leap_second
  unfold nearestMinute
  dsimp only
  rcases Nat.lt_or_ge a.nanos 1000000000 with ha | ha
  · split <;> split <;> omega
  · have := hleap ha
    split <;> split <;> omega

theorem le_nearestMinute {s : Int} (hs : 60 ∣ s) {t : Instant} (h : s ≤ t.seconds) :
    s ≤ nearestMinute t := by
  unfold nearestMinute
  dsimp only
  split <;> omega

/-! ## Spreading -/

/-- The minutes of a delta lie between the ones nearest to its ends, with counts on the side of zero
of its own. -/
theorem mem_spread {d : EventDelta} {minute count : Int} (h : (minute, count) ∈ d.spread) :
    nearestMinute d.first ≤ minute ∧ minute ≤ nearestMinute d.last ∧ 60 ∣ minute ∧
      (0 ≤ d.count → 0 < count) ∧ (d.count ≤ 0 → count < 0) := by
  have hfirst := dvd_nearestMinute d.first
  have hlast := dvd_nearestMinute d.last
  unfold spread at h
  dsimp only at h
  split at h
  · cases h
  · next hspread =>
    obtain ⟨hmem, hcount⟩ := List.mem_filter.mp h
    obtain ⟨⟨c, i⟩, hi, hbucket⟩ := List.mem_map.mp hmem
    obtain ⟨rfl, rfl⟩ := Prod.mk.inj hbucket
    have hne : c ≠ 0 := by simpa using hcount
    have hlt := List.snd_lt_of_mem_zipIdx hi
    have hpart := List.fst_mem_of_mem_zipIdx hi
    rw [distribute, List.length_map, List.length_range] at hlt
    refine ⟨by omega, by omega, by omega, fun hnonneg => ?_, fun hnonpos => ?_⟩
    · have := nonneg_of_mem_distribute hnonneg hpart
      omega
    · have := nonpos_of_mem_distribute hnonpos hpart
      omega

theorem sum_filter_ne_zero (buckets : List (Int × Int)) :
    ((buckets.filter fun bucket => bucket.2 ≠ 0).map Prod.snd).sum =
      (buckets.map Prod.snd).sum := by
  induction buckets with
  | nil => rfl
  | cons bucket buckets ih =>
    rw [List.filter_cons]
    split
    · rw [List.map_cons, List.sum_cons, ih, List.map_cons, List.sum_cons]
    · next hzero =>
      have hzero : bucket.2 = 0 := by simpa using hzero
      rw [ih, List.map_cons, List.sum_cons, hzero, Int.zero_add]

/-- `spread` keeps the count of a delta whose ends are not nearest to minutes in the wrong order. A
count below zero is divided without loss only into one minute. -/
theorem sum_spread_of_le {d : EventDelta} (hle : nearestMinute d.first ≤ nearestMinute d.last)
    (hcount : 0 ≤ d.count ∨ nearestMinute d.first = nearestMinute d.last) :
    (d.spread.map Prod.snd).sum = d.count := by
  unfold spread
  dsimp only
  split
  · next h => exact (h.resolve_right (Int.not_lt.mpr hle)).symm
  · rw [sum_filter_ne_zero, List.map_map]
    refine (congrArg List.sum (List.map_congr_left fun _ _ => rfl)).trans
      ((congrArg List.sum (List.zipIdx_map_fst 0 _)).trans ?_)
    rcases hcount with hcount | hminute
    · exact sum_distribute hcount (by omega)
    · rw [hminute, Int.sub_self]
      simp [distribute]

theorem sum_spread {d : EventDelta} (hcount : 0 ≤ d.count) (hle : d.first ≤ d.last) :
    (d.spread.map Prod.snd).sum = d.count :=
  sum_spread_of_le (nearestMinute_mono hle) (.inl hcount)

end EventDelta

/-! ## Folding the last minutes -/

namespace Intake

open EventDelta

variable {g : Granularity}

theorem foldMinutes_cons (lastMinute : Int) (bucket : Int × Int) (buckets : List (Int × Int)) :
    foldMinutes lastMinute (bucket :: buckets) =
      (foldMinutes lastMinute buckets).alter (min bucket.1 lastMinute) 0 (· + bucket.2) := rfl

theorem sumBy_foldMinutes (lastMinute : Int) (buckets : List (Int × Int)) :
    (foldMinutes lastMinute buckets).sumBy (fun _ count => count) =
      (buckets.map Prod.snd).sum := by
  induction buckets with
  | nil => rfl
  | cons bucket buckets ih =>
    rw [foldMinutes_cons, SortedMap.sumBy_alter _ _ _ _ _ rfl, ih, List.map_cons, List.sum_cons]
    omega

/-- Every folded minute comes from a bucket, and its count is on the side of zero of all of them. -/
theorem mem_entries_foldMinutes {lastMinute : Int} {buckets : List (Int × Int)} {minute count : Int}
    (h : (minute, count) ∈ (foldMinutes lastMinute buckets).entries) :
    (∃ bucket ∈ buckets, minute = min bucket.1 lastMinute) ∧
      ((∀ bucket ∈ buckets, 0 < bucket.2) → 0 < count) ∧
      ((∀ bucket ∈ buckets, bucket.2 < 0) → count < 0) := by
  induction buckets generalizing minute count with
  | nil => cases h
  | cons bucket buckets ih =>
    rw [foldMinutes_cons] at h
    rcases SortedMap.mem_entries_alter h with h | h
    · obtain ⟨rfl, rfl⟩ := Prod.mk.inj h
      refine ⟨⟨bucket, List.mem_cons_self, rfl⟩, fun hpos => ?_, fun hneg => ?_⟩
      · have hbucket := hpos bucket List.mem_cons_self
        cases hget : (foldMinutes lastMinute buckets).get? (min bucket.1 lastMinute) with
        | none => simpa using hbucket
        | some known =>
          have hknown := (ih (SortedMap.mem_iff_get?.mpr hget)).2.1
            fun b hb => hpos b (List.mem_cons_of_mem _ hb)
          rw [Option.getD_some]
          omega
      · have hbucket := hneg bucket List.mem_cons_self
        cases hget : (foldMinutes lastMinute buckets).get? (min bucket.1 lastMinute) with
        | none => simpa using hbucket
        | some known =>
          have hknown := (ih (SortedMap.mem_iff_get?.mpr hget)).2.2
            fun b hb => hneg b (List.mem_cons_of_mem _ hb)
          rw [Option.getD_some]
          omega
    · obtain ⟨⟨bucket', hmem, rfl⟩, hpos, hneg⟩ := ih h
      exact ⟨⟨bucket', List.mem_cons_of_mem _ hmem, rfl⟩,
        fun h => hpos fun b hb => h b (List.mem_cons_of_mem _ hb),
        fun h => hneg fun b hb => h b (List.mem_cons_of_mem _ hb)⟩

/-! ## Grouping by partition -/

/-- The partition that a minute is counted in. -/
def partitionOfMinute? (g : Granularity) (minute : Int) : Option String :=
  (Instant.ofSeconds? minute).map g.partitionOf

theorem partitionOfMinute?_eq_some_iff {minute : Int} {p : String} :
    partitionOfMinute? g minute = some p ↔
      ∃ t, Instant.ofSeconds? minute = some t ∧ p = Partition.idAt (g.floor minute) := by
  unfold partitionOfMinute?
  rw [Option.map_eq_some_iff]
  refine exists_congr fun t => and_congr_right fun ht => ?_
  rw [Granularity.partitionOf, (Instant.of?_eq_some_iff.mp ht).1, eq_comm]

/-- Put a minute before those of its partition. -/
def addToGroup (g : Granularity) (bucket : Int × Int)
    (groups : SortedMap String (List (Int × Int))) : SortedMap String (List (Int × Int)) :=
  match Instant.ofSeconds? bucket.1 with
  | none => groups
  | some time => groups.alter (g.partitionOf time) [] (bucket :: ·)

theorem groupMinutes_eq (minutes : SortedMap Int Int) :
    groupMinutes g minutes = minutes.entries.foldr (addToGroup g) .empty := rfl

/-- What `groupMinutes` gives a partition: the minutes that lie in it, in order. -/
theorem get?_groupMinutes (minutes : SortedMap Int Int) (p : String) :
    (groupMinutes g minutes).get? p =
      if (minutes.entries.filter fun b => partitionOfMinute? g b.1 = some p) = [] then none
      else some (minutes.entries.filter fun b => partitionOfMinute? g b.1 = some p) := by
  rw [groupMinutes_eq]
  induction minutes.entries with
  | nil => rfl
  | cons bucket buckets ih =>
    rw [List.foldr_cons, List.filter_cons, addToGroup]
    cases htime : Instant.ofSeconds? bucket.1 with
    | none =>
      have hnone : partitionOfMinute? g bucket.1 = none := by rw [partitionOfMinute?, htime]; rfl
      simp only [hnone, reduceCtorEq, decide_false, Bool.false_eq_true, if_false]
      exact ih
    | some time =>
      have hsome : partitionOfMinute? g bucket.1 = some (g.partitionOf time) := by
        rw [partitionOfMinute?, htime]; rfl
      dsimp only
      rw [SortedMap.get?_alter]
      by_cases hp : p = g.partitionOf time
      · subst hp
        rw [if_pos rfl, ih, hsome]
        simp only [decide_true, if_true, reduceCtorEq, if_false]
        split
        · next hnil => rw [hnil]; rfl
        · rfl
      · have hne : ¬ partitionOfMinute? g bucket.1 = some p := fun h =>
          hp (Option.some.inj (hsome.symm.trans h)).symm
        rw [if_neg hp, ih, decide_eq_false hne]
        rfl

theorem mem_entries_groupMinutes {minutes : SortedMap Int Int} {p : String}
    {buckets : List (Int × Int)} (h : (p, buckets) ∈ (groupMinutes g minutes).entries) :
    buckets ≠ [] ∧ buckets = minutes.entries.filter fun b => partitionOfMinute? g b.1 = some p := by
  rw [SortedMap.mem_iff_get?, get?_groupMinutes] at h
  split at h
  · cases h
  · next hne =>
    cases h
    exact ⟨hne, rfl⟩

/-- `groupMinutes` keeps the sum of any number for every bucket, if the partition of every minute
can be told. -/
theorem sumBy_groupMinutes_map {minutes : SortedMap Int Int} (f : Int × Int → Int)
    (h : ∀ bucket ∈ minutes.entries, ∃ p, partitionOfMinute? g bucket.1 = some p) :
    (groupMinutes g minutes).sumBy (fun _ buckets => (buckets.map f).sum) =
      (minutes.entries.map f).sum := by
  have hfold : ∀ buckets : List (Int × Int),
      (∀ bucket ∈ buckets, ∃ p, partitionOfMinute? g bucket.1 = some p) →
      (buckets.foldr (addToGroup g) SortedMap.empty).sumBy
          (fun _ buckets => (buckets.map f).sum) = (buckets.map f).sum := by
    intro buckets hall
    induction buckets with
    | nil => rfl
    | cons bucket buckets ih =>
      obtain ⟨p, hp⟩ := hall bucket List.mem_cons_self
      obtain ⟨t, ht, -⟩ := partitionOfMinute?_eq_some_iff.mp hp
      rw [List.foldr_cons, addToGroup, ht]
      dsimp only
      rw [SortedMap.sumBy_alter _ _ _ _ _ rfl, ih fun b hb => hall b (List.mem_cons_of_mem _ hb),
        List.map_cons, List.sum_cons, List.map_cons, List.sum_cons]
      omega
  exact hfold minutes.entries h

theorem sumBy_groupMinutes {minutes : SortedMap Int Int}
    (h : ∀ bucket ∈ minutes.entries, ∃ p, partitionOfMinute? g bucket.1 = some p) :
    (groupMinutes g minutes).sumBy (fun _ buckets => (buckets.map Prod.snd).sum) =
      minutes.sumBy fun _ count => count :=
  sumBy_groupMinutes_map Prod.snd h

end Intake

end WatchHistory
