import Mathlib.Algebra.Order.Field.Rat
import Mathlib.Algebra.Order.Floor.Defs
import Mathlib.Data.Rat.Floor
import WatchHistory.Proofs.Event.Latest
import WatchHistory.Proofs.Event.Window

/-!
# Counts that are not negative

What is told of an event is not negative, and so are the shares of it that are counted, as long as
the time from one instant to a later one is not. That time is negative only if the earlier instant
is in the leap second at the end of its day and the later one less than a second behind it, because
the leap second is not made up for where the time of day of the later one is the earlier
(`Instant.since_neg_iff`). A count that is cut at whole seconds is not negative or left to one
minute (`EventDelta.count_cut_nonneg_or`), and of what is told without such instants no negative
count is left (`Intake.count_clip_nonneg`).
-/

set_option autoImplicit false

namespace WatchHistory

open WatchHistory.Partition

namespace Instant

/-- Whether an instant is in the leap second at the end of its day. -/
def EndsDay (t : Instant) : Prop := t.isLeap = true ∧ t.secondOfDay = 86399

instance (t : Instant) : Decidable t.EndsDay := inferInstanceAs (Decidable (_ ∧ _))

theorem not_endsDay_of_nanos {t : Instant} (h : t.nanos = 0) : ¬ t.EndsDay := by
  rintro ⟨hleap, -⟩
  rw [isLeap, h] at hleap
  exact absurd hleap (by decide)

/-- Whether an instant follows the leap second at the end of a day by less than another one is in
it. -/
structure FollowsLeap (a b : Instant) : Prop where
  endsDay : b.EndsDay
  next_second : a.seconds = b.seconds + 1
  nanos_lt : a.nanos + billion < b.nanos

/-- The time `since` an earlier instant is negative exactly if that one is in the leap second at the
end of a day: the leap second is not made up for where the later time of day is the lesser one. -/
theorem since_neg_iff {a b : Instant} (h : b < a) : a.since b < 0 ↔ a.FollowsLeap b := by
  have hlt := lt_iff.mp h
  have ha := a.leap_second
  have hb := b.leap_second
  have hanos := a.nanos_lt
  have hbnos := b.nanos_lt
  constructor
  · intro hneg
    have hparts : (b.nanos ≥ 1000000000 ∧ b.seconds % 86400 = 86399) ∧
        a.seconds = b.seconds + 1 ∧ a.nanos + 1000000000 < b.nanos := by
      unfold since isLeap secondOfDay billion at hneg
      simp only [decide_eq_true_eq] at hneg
      split at hneg
      · split at hneg <;> omega
      · split at hneg
        · split at hneg <;> omega
        · omega
    obtain ⟨⟨hleap, hday⟩, hnext, hnanos⟩ := hparts
    exact ⟨⟨decide_eq_true hleap, hday⟩, hnext, hnanos⟩
  · rintro ⟨⟨-, hday⟩, hnext, hnanos⟩
    unfold secondOfDay at hday
    unfold billion at hnanos
    unfold since isLeap secondOfDay billion
    simp only [decide_eq_true_eq]
    rw [if_neg (by omega), if_pos (by omega), if_neg (by omega)]
    omega

theorem since_nonneg {a b : Instant} (h : b < a) (hb : ¬ b.EndsDay) : 0 ≤ a.since b :=
  Int.not_lt.mp fun hneg => hb ((since_neg_iff h).mp hneg).endsDay

theorem FollowsLeap.nearestMinute_eq {a b : Instant} (h : a.FollowsLeap b) :
    EventDelta.nearestMinute b = a.seconds ∧ EventDelta.nearestMinute a = a.seconds := by
  obtain ⟨⟨-, hday⟩, hnext, hnanos⟩ := h
  have hbnos := b.nanos_lt
  unfold secondOfDay at hday
  unfold billion at hnanos
  unfold EventDelta.nearestMinute
  dsimp only
  constructor
  · rw [if_pos (by omega)]
    omega
  · rw [if_neg (by omega)]
    omega

theorem FollowsLeap.of_between {a b c : Instant} (h : a.FollowsLeap b) (hc : c.nanos = 0)
    (hbc : b < c) (hca : c < a) : c.FollowsLeap b ∧ c.seconds = a.seconds := by
  have hbc := lt_iff.mp hbc
  have hca := lt_iff.mp hca
  have hnext := h.next_second
  have hnanos := h.nanos_lt
  have hseconds : c.seconds = b.seconds + 1 := by omega
  exact ⟨⟨h.endsDay, hseconds, by omega⟩, by omega⟩

end Instant

namespace Binary64

theorem powerOfTwo_pos (e : Int) : 0 < powerOfTwo e := by
  unfold powerOfTwo
  split
  · exact_mod_cast Nat.pow_pos (by decide : 0 < 2)
  · exact div_pos one_pos (by exact_mod_cast Nat.pow_pos (by decide : 0 < 2))

theorem roundEven_nonneg {q : Rat} (h : 0 ≤ q) : 0 ≤ roundEven q := by
  have hfloor : 0 ≤ q.floor := Rat.le_floor_iff.mpr (by exact_mod_cast h)
  unfold roundEven
  dsimp only
  split
  · exact hfloor
  · split
    · omega
    · split <;> omega

theorem nearest_nonneg {q : Rat} (h : 0 ≤ q) : 0 ≤ nearest q := by
  have hspacing : 0 < spacing q := powerOfTwo_pos _
  unfold nearest
  split
  · exact le_refl _
  · exact mul_nonneg (by exact_mod_cast roundEven_nonneg (div_nonneg h hspacing.le)) hspacing.le

theorem toInt_nonneg {q : Rat} (h : 0 ≤ q) : 0 ≤ toInt q := by
  have htruncate : 0 ≤ truncate q := by
    rw [truncate, if_neg (not_lt.mpr h)]
    exact Rat.le_floor_iff.mpr (by exact_mod_cast h)
  unfold toInt Decimal.greatest
  omega

end Binary64

namespace EventDelta

theorem inSeconds_nonneg {nanos : Int} (h : 0 ≤ nanos) : 0 ≤ inSeconds nanos := by
  have hmillis : 0 ≤ nanos.tdiv 1000000 := Int.tdiv_nonneg h (by decide)
  refine Binary64.nearest_nonneg (div_nonneg (Binary64.nearest_nonneg ?_) (by norm_num))
  exact_mod_cast hmillis

theorem share_nonneg {count : Int} {kept total : Rat} (hcount : 0 ≤ count) (hkept : 0 ≤ kept)
    (htotal : 0 ≤ total) : 0 ≤ share count kept total := by
  unfold share
  split
  · split
    · exact le_refl _
    · next hne =>
      rw [not_or] at hne
      have hkept' : 0 < kept := lt_of_le_of_ne hkept (Ne.symm hne.1)
      have hcount' : 0 < count := lt_of_le_of_ne hcount (Ne.symm hne.2)
      rw [if_pos (by simp [hkept', hcount'])]
      decide
  · refine Binary64.toInt_nonneg (Binary64.nearest_nonneg (mul_nonneg ?_ ?_))
    · exact Binary64.nearest_nonneg (by exact_mod_cast hcount)
    · exact Binary64.nearest_nonneg (div_nonneg hkept htotal)

theorem neg_of_share_neg {count kept total : Int} (hcount : 0 ≤ count)
    (h : share count (inSeconds kept) (inSeconds total) < 0) : kept < 0 ∨ total < 0 := by
  by_cases hkept : kept < 0
  · exact .inl hkept
  · refine .inr (Int.not_le.mp fun htotal => Int.not_le.mpr h ?_)
    exact share_nonneg hcount (inSeconds_nonneg (Int.not_lt.mp hkept)) (inSeconds_nonneg htotal)

/-- What is left from a second on counts below zero only if the delta starts in a leap second and
ends in the next second, at the start of which it is cut. -/
theorem followsLeap_of_truncate_neg {d : EventDelta} (hcount : 0 ≤ d.count) {start : Instant}
    (hstart : start.nanos = 0) (h : (d.truncate start).count < 0) :
    d.first < start ∧ start < d.last ∧ d.last.FollowsLeap d.first := by
  unfold truncate at h
  split at h
  · exact absurd hcount (Int.not_le.mpr h)
  · next hbefore =>
    split at h
    · exact absurd h (Int.lt_irrefl 0)
    · next hafter =>
      have hfirst : d.first < start := Decidable.not_not.mp hbefore
      have hlast : start < d.last := Decidable.not_not.mp hafter
      refine ⟨hfirst, hlast, ?_⟩
      rcases neg_of_share_neg hcount h with hkept | htotal
      · exact absurd ((Instant.since_neg_iff hlast).mp hkept).endsDay
          (Instant.not_endsDay_of_nanos hstart)
      · exact (Instant.since_neg_iff (StrictOrder.trans hfirst hlast)).mp htotal

/-- What is left up to a second counts below zero only if the delta starts in the leap second before
it. -/
theorem followsLeap_of_clampEnd_neg {d : EventDelta} (hcount : 0 ≤ d.count) {stop : Instant}
    (hstop : stop.nanos = 0) (h : (d.clampEnd stop).count < 0) :
    (d.clampEnd stop).first = d.first ∧ (d.clampEnd stop).last = stop ∧
      stop.FollowsLeap d.first := by
  unfold clampEnd at h ⊢
  split at h
  · exact absurd hcount (Int.not_le.mpr h)
  · next hafter =>
    split at h
    · exact absurd h (Int.lt_irrefl 0)
    · next hbefore =>
      have hfirst : d.first < stop := Decidable.not_not.mp hbefore
      have hlast : stop < d.last := Decidable.not_not.mp hafter
      rw [if_neg hafter, if_neg hbefore]
      refine ⟨rfl, rfl, ?_⟩
      rcases neg_of_share_neg hcount h with hkept | htotal
      · exact (Instant.since_neg_iff hfirst).mp hkept
      · have hleap := (Instant.since_neg_iff (StrictOrder.trans hfirst hlast)).mp htotal
        exact (hleap.of_between hstop hfirst hlast).1

/-- What `truncate` and `clampEnd` leave of a count between two seconds is not negative, or it is
left to one minute. -/
theorem count_cut_nonneg_or {d : EventDelta} (hcount : 0 ≤ d.count) {start stop : Instant}
    (hstart : start.nanos = 0) (hstop : stop.nanos = 0) :
    0 ≤ ((d.truncate start).clampEnd stop).count ∨
      nearestMinute ((d.truncate start).clampEnd stop).first =
        nearestMinute ((d.truncate start).clampEnd stop).last := by
  rcases Int.lt_or_le (d.truncate start).count 0 with hneg | hnonneg
  · obtain ⟨hfirst, hlast, hleap⟩ := followsLeap_of_truncate_neg hcount hstart hneg
    obtain ⟨hstart', hsecond⟩ := hleap.of_between hstart hfirst hlast
    rw [truncate, if_neg fun h => h hfirst, if_neg fun h => h hlast, clampEnd]
    split
    · right
      dsimp only
      rw [hstart'.nearestMinute_eq.2, hleap.nearestMinute_eq.2, hsecond]
    · next hafter =>
      split
      · exact .inl (Int.le_refl 0)
      · next hbefore =>
        -- No second starts between the start of one and an instant within it.
        have hstarted := Instant.lt_iff.mp (Decidable.not_not.mp hbefore : start < stop)
        have hstopped := Instant.lt_iff.mp (Decidable.not_not.mp hafter : stop < d.last)
        omega
  · rcases Int.lt_or_le ((d.truncate start).clampEnd stop).count 0 with hneg | hnonneg'
    · obtain ⟨hfirst, hlast, hleap⟩ := followsLeap_of_clampEnd_neg hnonneg hstop hneg
      right
      rw [hfirst, hlast, hleap.nearestMinute_eq.1, hleap.nearestMinute_eq.2]
    · exact .inl hnonneg'

/-- Whether a delta can be cut without counting below zero. -/
structure Steady (d : EventDelta) : Prop where
  count_nonneg : 0 ≤ d.count
  first : ¬ d.first.EndsDay

namespace Steady

variable {d : EventDelta}

theorem truncate (h : d.Steady) {start : Instant} (hstart : ¬ start.EndsDay) :
    (d.truncate start).Steady := by
  unfold EventDelta.truncate
  split
  · exact h
  · next hbefore =>
    split
    · exact ⟨le_refl _, hstart⟩
    · next hafter =>
      have hfirst : d.first < start := Decidable.not_not.mp hbefore
      have hlast : start < d.last := Decidable.not_not.mp hafter
      exact ⟨share_nonneg h.count_nonneg (inSeconds_nonneg (Instant.since_nonneg hlast hstart))
        (inSeconds_nonneg (Instant.since_nonneg (StrictOrder.trans hfirst hlast) h.first)), hstart⟩

theorem clampEnd (h : d.Steady) {stop : Instant} (hstop : ¬ stop.EndsDay) :
    (d.clampEnd stop).Steady := by
  unfold EventDelta.clampEnd
  split
  · exact h
  · next hafter =>
    split
    · exact ⟨le_refl _, hstop⟩
    · next hbefore =>
      have hfirst : d.first < stop := Decidable.not_not.mp hbefore
      have hlast : stop < d.last := Decidable.not_not.mp hafter
      exact ⟨share_nonneg h.count_nonneg (inSeconds_nonneg (Instant.since_nonneg hfirst h.first))
        (inSeconds_nonneg (Instant.since_nonneg (StrictOrder.trans hfirst hlast) h.first)),
        h.first⟩

end Steady

end EventDelta

/-- Whether an event tells no negative count, and no time in the leap second at the end of a
day. -/
structure EventInfo.Steady (e : EventInfo) : Prop where
  count_nonneg : 0 ≤ e.count
  first : ¬ e.first.EndsDay
  last : ¬ e.last.EndsDay

theorem EventDelta.steady_ofObservations {previous : Option EventInfo} {current : EventInfo}
    (hprevious : ∀ e ∈ previous, e.Steady) (hcurrent : current.Steady) :
    (ofObservations previous current).Steady := by
  have hinfo : (ofInfo current).Steady := ⟨hcurrent.count_nonneg, hcurrent.first⟩
  have hzero : zero.Steady := ⟨le_refl _, by decide⟩
  unfold ofObservations
  split
  · exact hinfo
  · next previous =>
    have hlast := (hprevious previous rfl).last
    split
    · exact hinfo
    · split
      · exact hzero
      · split
        · dsimp only
          split
          · exact hzero
          · next hgrown => exact ⟨Int.not_lt.mp hgrown, hlast⟩
        · split
          · exact hzero
          · exact ⟨Int.le_max_left 0 _, hlast⟩

/-! ## What is left of a delta -/

namespace Intake

variable {g : Granularity} {d clipped : EventDelta} {bounds : String × String} {lastMinute : Int}

theorem nanos_of_start {id : String} {t : Instant} (h : Partition.start id = .ok t) :
    t.nanos = 0 := (start_eq_ok_iff.mp h).2.2

theorem exists_starts_of_clip (h : clip g bounds d = .ok (clipped, lastMinute)) :
    ∃ start stop : Instant, start.nanos = 0 ∧ stop.nanos = 0 ∧ g.seconds ∣ stop.seconds ∧
      clipped = (d.truncate start).clampEnd stop ∧ lastMinute = stop.seconds - 60 := by
  obtain ⟨start, hstart, h⟩ := bind_eq_ok.mp h
  obtain ⟨id, hid, h⟩ := bind_eq_ok.mp h
  obtain ⟨stop, hstop, h⟩ := bind_eq_ok.mp h
  obtain ⟨rfl, rfl⟩ := Prod.mk.inj (Except.ok.inj h)
  refine ⟨start, stop, ?_, nanos_of_start hstop, ?_, rfl, rfl⟩
  · unfold EventDelta.truncationPoint at hstart
    dsimp only at hstart
    split at hstart
    · exact nanos_of_start hstart
    · obtain ⟨_, -, hstart⟩ := bind_eq_ok.mp hstart
      exact nanos_of_start hstart
  · obtain ⟨⟨_, t⟩, -, hid⟩ := bind_eq_ok.mp hid
    obtain rfl : g.partitionOf t = id := Except.ok.inj hid
    obtain ⟨hsame, hrange, -⟩ := eq_idAt_of_start hstop
    have hfloor : InRange (g.floor t.seconds) := start_idAt_iff.mp ⟨stop, hstop⟩
    rw [← idAt_injective hfloor hrange hsame]
    exact g.dvd_floor t.seconds

theorem count_clip_nonneg (h : clip g bounds d = .ok (clipped, lastMinute)) (hd : d.Steady) :
    0 ≤ clipped.count := by
  obtain ⟨start, stop, hstart, hstop, -, rfl, -⟩ := exists_starts_of_clip h
  exact ((hd.truncate (Instant.not_endsDay_of_nanos hstart)).clampEnd
    (Instant.not_endsDay_of_nanos hstop)).count_nonneg

theorem dvd_lastMinute (h : clip g bounds d = .ok (clipped, lastMinute)) : 60 ∣ lastMinute := by
  obtain ⟨start, stop, -, -, hdvd, -, rfl⟩ := exists_starts_of_clip h
  exact Int.dvd_sub (Int.dvd_trans g.sixty_dvd_seconds hdvd) (Int.dvd_refl 60)

end Intake

end WatchHistory
