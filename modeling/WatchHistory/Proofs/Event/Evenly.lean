import Mathlib.Data.List.Intervals
import WatchHistory.Proofs.Event.Minutes

/-!
# How evenly a count is spread

`EventDelta.spread` puts a count on the minutes from the one nearest to the first instant to the one
nearest to the last, the same on each of them but for one more on the first few
(`EventDelta.spread_evenly`). The parts are:

* `EventDelta.nearestMinute_eq_iff`: the nearest minute is the whole minute that is at most half a
  minute away, the later one of two.
* `EventDelta.spread_eq`: the minutes that get something are the first ones, all of them if there is
  enough for all.
-/

set_option autoImplicit false

namespace WatchHistory.EventDelta

/-! ## Nearest minutes -/

/-- Whether a second starts the minute nearest to an instant: no other minute is nearer, and of two
that are half a minute away it is the later one. -/
structure NearestMinute (t : Instant) (minute : Int) : Prop where
  whole : 60 ∣ minute
  not_far_before : t.totalNanos - 30000000000 < minute * 1000000000
  not_far_behind : minute * 1000000000 ≤ t.totalNanos + 30000000000

theorem nearestMinute_spec (t : Instant) : NearestMinute t (nearestMinute t) := by
  have hlt := t.nanos_lt
  have hleap := t.leap_second
  refine ⟨dvd_nearestMinute t, ?_, ?_⟩
  all_goals
    unfold nearestMinute Instant.totalNanos
    dsimp only
    rcases Nat.lt_or_ge t.nanos 1000000000 with hnanos | hnanos
    · split <;> omega
    · -- A leap second lies behind the middle of its minute.
      have := hleap hnanos
      split <;> omega

theorem nearestMinute_eq_iff {t : Instant} {minute : Int} :
    nearestMinute t = minute ↔ NearestMinute t minute := by
  constructor
  · rintro rfl
    exact nearestMinute_spec t
  · rintro ⟨hwhole, hbefore, hbehind⟩
    obtain ⟨hwhole', hbefore', hbehind'⟩ := nearestMinute_spec t
    omega

/-! ## The closed form -/

/-- What the `i`-th of `parts` equal parts of a number gets. -/
def part (value parts i : Nat) : Nat := value / parts + if i < value % parts then 1 else 0

theorem part_pos_iff {value parts i : Nat} (hi : i < parts) :
    0 < part value parts i ↔ i < value := by
  unfold part
  rcases Nat.lt_or_ge value parts with hlt | hge
  · rw [Nat.div_eq_of_lt hlt, Nat.mod_eq_of_lt hlt]
    split <;> omega
  · have := Nat.div_pos hge (Nat.zero_lt_of_lt hi)
    omega

theorem part_le_part {value parts i j : Nat} (h : i ≤ j) :
    part value parts j ≤ part value parts i := by
  unfold part
  split <;> split <;> omega

theorem natCast_part (value parts i : Nat) :
    (part value parts i : Int) =
      (value : Int) / parts + if (i : Int) < (value : Int) % parts then 1 else 0 := by
  unfold part
  rw [Int.natCast_add, ← Int.natCast_emod, ← Int.natCast_ediv]
  simp only [Int.ofNat_lt]
  split <;> rfl

theorem distribute_natCast (value parts : Nat) :
    distribute value parts = (List.range parts).map fun i => (part value parts i : Int) := by
  refine List.map_congr_left fun i _ => ?_
  rw [natCast_part, ← Int.ofNat_tmod, ← Int.ofNat_tdiv, Int.natCast_emod, Int.natCast_ediv]
  split <;> simp

/-- The number of minutes that a delta is spread over. -/
def minuteCount (d : EventDelta) : Nat :=
  ((nearestMinute d.last - nearestMinute d.first) / 60 + 1).toNat

/-- The `i`-th of the minutes that a delta is spread over, with its part of the count. -/
def bucketAt (d : EventDelta) (i : Nat) : Int × Int :=
  (nearestMinute d.first + 60 * (i : Int), (part d.count.toNat d.minuteCount i : Int))

theorem eq_of_bucketAt {d : EventDelta} {i j : Nat} (h : (d.bucketAt i).1 = (d.bucketAt j).1) :
    i = j := by
  unfold bucketAt at h
  omega

/-- `spread` puts something into as many minutes as the count tells, the first ones, or into all of
them. -/
theorem spread_eq {d : EventDelta} (hcount : 0 ≤ d.count)
    (hle : nearestMinute d.first ≤ nearestMinute d.last) :
    d.spread = (List.range (min d.minuteCount d.count.toNat)).map d.bucketAt := by
  have hbuckets : ((distribute d.count d.minuteCount).zipIdx.map fun share : Int × Nat =>
      (nearestMinute d.first + 60 * (share.2 : Int), share.1)) =
        (List.range d.minuteCount).map d.bucketAt := by
    obtain ⟨value, hvalue⟩ := Int.eq_ofNat_of_zero_le hcount
    unfold bucketAt
    rw [hvalue, Int.toNat_natCast, distribute_natCast]
    refine List.ext_getElem (by simp) fun i _ _ => ?_
    simp
  have hkept : ((List.range d.minuteCount).map d.bucketAt).filter (fun bucket => bucket.2 ≠ 0) =
      (List.range (min d.minuteCount d.count.toNat)).map d.bucketAt := by
    rw [List.filter_map, ← List.Ico.zero_bot, ← List.Ico.zero_bot, ← List.Ico.filter_lt]
    refine congrArg (List.map d.bucketAt) (List.filter_congr fun i hi => ?_)
    have hpart : 0 < part d.count.toNat d.minuteCount i ↔ i < d.count.toNat :=
      part_pos_iff (List.Ico.mem.mp hi).2
    refine decide_eq_decide.mpr ?_
    show ((part d.count.toNat d.minuteCount i : Nat) : Int) ≠ 0 ↔ i < d.count.toNat
    omega
  unfold spread
  dsimp only
  split
  · next h => rw [h.resolve_right (Int.not_lt.mpr hle), Int.toNat_zero, Nat.min_zero]; rfl
  · exact (congrArg (List.filter _) hbuckets).trans hkept

/-! ## Spreading evenly -/

/-- What a delta counts for a minute; nothing if the minute is left out. -/
def countAt (d : EventDelta) (minute : Int) : Int :=
  ((d.spread.find? fun bucket => bucket.1 = minute).map Prod.snd).getD 0

theorem countAt_bucketAt {d : EventDelta} (hcount : 0 ≤ d.count)
    (hle : nearestMinute d.first ≤ nearestMinute d.last) {i : Nat} (hi : i < d.minuteCount) :
    d.countAt (d.bucketAt i).1 = (d.bucketAt i).2 := by
  have hpart : 0 < part d.count.toNat d.minuteCount i ↔ i < d.count.toNat := part_pos_iff hi
  unfold countAt
  rw [spread_eq hcount hle, List.find?_map]
  cases hfound : (List.range (min d.minuteCount d.count.toNat)).find?
      ((fun bucket => decide (bucket.1 = (d.bucketAt i).1)) ∘ d.bucketAt) with
  | some j =>
    have hj := List.find?_some hfound
    rw [eq_of_bucketAt (of_decide_eq_true hj)]
    rfl
  | none =>
    -- It is left out, so there is nothing left for it.
    have hout := List.find?_eq_none.mp hfound i
    have hge : ¬ i < min d.minuteCount d.count.toNat := fun hlt =>
      hout (List.mem_range.mpr hlt) (decide_eq_true rfl)
    simp only [bucketAt, Option.map_none, Option.getD_none]
    omega

/-- Whether a delta is spread evenly over the minutes from `first` to `last`. -/
structure SpreadEvenly (d : EventDelta) (first last : Int) : Prop where
  /-- The minutes that get something follow each other from the first one on. -/
  consecutive : d.spread.map Prod.fst =
    (List.range d.spread.length).map fun i : Nat => first + 60 * (i : Int)
  whole : ∀ bucket ∈ d.spread, 60 ∣ bucket.1
  le_last : ∀ bucket ∈ d.spread, bucket.1 ≤ last
  /-- No minute is more than half a minute before the first or behind the last instant. -/
  near : ∀ bucket ∈ d.spread, d.first.totalNanos - 30000000000 ≤ bucket.1 * 1000000000 ∧
    bucket.1 * 1000000000 ≤ d.last.totalNanos + 30000000000
  positive : ∀ bucket ∈ d.spread, 0 < bucket.2
  sum_eq : (d.spread.map Prod.snd).sum = d.count
  descending : (d.spread.map Prod.snd).Pairwise (· ≥ ·)
  /-- Every minute gets the same, but for one more on as many of the first as are left over. -/
  even : ∀ i : Nat, first + 60 * (i : Int) ≤ last → d.countAt (first + 60 * (i : Int)) =
    d.count / ((last - first) / 60 + 1) +
      if (i : Int) < d.count % ((last - first) / 60 + 1) then 1 else 0

theorem spreadEvenly_of_le {d : EventDelta} (hcount : 0 ≤ d.count)
    (hle : nearestMinute d.first ≤ nearestMinute d.last) :
    d.SpreadEvenly (nearestMinute d.first) (nearestMinute d.last) where
  consecutive := by
    rw [spread_eq hcount hle, List.map_map, List.length_map, List.length_range]
    rfl
  whole _ hbucket := (mem_spread hbucket).2.2.1
  le_last _ hbucket := (mem_spread hbucket).2.1
  near bucket hbucket := by
    obtain ⟨hge, hle, -⟩ := mem_spread hbucket
    have := (nearestMinute_spec d.first).not_far_before
    have := (nearestMinute_spec d.last).not_far_behind
    omega
  positive _ hbucket := (mem_spread hbucket).2.2.2.1 hcount
  sum_eq := sum_spread_of_le hle (.inl hcount)
  descending := by
    rw [spread_eq hcount hle, List.map_map, List.pairwise_map]
    exact List.pairwise_lt_range.imp fun h => Int.ofNat_le.mpr (part_le_part (Nat.le_of_lt h))
  even i hi := by
    have hminutes : (d.minuteCount : Int) =
        (nearestMinute d.last - nearestMinute d.first) / 60 + 1 := by
      unfold minuteCount
      omega
    have hlt : i < d.minuteCount := by omega
    refine (countAt_bucketAt hcount hle hlt).trans ?_
    rw [bucketAt, natCast_part, hminutes, Int.toNat_of_nonneg hcount]

/-- **Minutes get equal parts.** A count that is not negative is spread evenly over the minutes from
the one nearest to the first instant to the one nearest to the last. If these are in the wrong order
there is no minute, and the count is lost. -/
theorem spread_evenly {d : EventDelta} (hcount : 0 ≤ d.count) :
    ∃ first last, NearestMinute d.first first ∧ NearestMinute d.last last ∧
      (last < first → d.spread = []) ∧ (first ≤ last → d.SpreadEvenly first last) := by
  refine ⟨_, _, nearestMinute_spec d.first, nearestMinute_spec d.last, fun hlt => ?_,
    spreadEvenly_of_le hcount⟩
  unfold spread
  exact if_pos (.inr hlt)

/-- Five events, from the leap second of a minute before the epoch to just before the middle of
another one behind it. -/
def acrossEpoch : EventDelta where
  first := ⟨-61, 1250000000, by decide, by decide, by decide, by decide⟩
  last := ⟨89, 999999999, by decide, by decide, by decide, by decide⟩
  count := 5

/-- Of the three minutes of `acrossEpoch`, the first two get one more than the last. -/
theorem spread_evenly_acrossEpoch :
    0 ≤ acrossEpoch.count ∧ acrossEpoch.spread = [(-60, 2), (0, 2), (60, 1)] ∧
      acrossEpoch.SpreadEvenly (-60) 60 := by
  have hcount : 0 ≤ acrossEpoch.count := by decide
  obtain ⟨first, last, hfirst, hlast, -, heven⟩ := spread_evenly hcount
  obtain rfl : -60 = first := nearestMinute_eq_iff.mpr hfirst
  obtain rfl : 60 = last := nearestMinute_eq_iff.mpr hlast
  exact ⟨hcount, by decide, heven (by decide)⟩

end WatchHistory.EventDelta
