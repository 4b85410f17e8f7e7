import WatchHistory.Proofs.Event.Sign
import WatchHistory.Proofs.Event.Telescope

/-!
# What an observation adds is part of what it tells

What an observation of an event adds to the one before counts no more than the observation tells,
and lies between its first and last times (`ofObservations_contained`). The exception is an event
that starts in the leap second at the end of a day where the observation before ended in the next
second: the time that the two share comes out negative, and so does the share of the count that is
taken off (`ofObservations_leapSecond`). Only then can the difference of the counts have more than
64 bits (`followsLeap_of_overflows`).
-/

set_option autoImplicit false

namespace WatchHistory.EventDelta

variable {previous : Option EventInfo} {current : EventInfo} {d : EventDelta}

theorem told_fits (p current : EventInfo) :
    Decimal.least ≤ told p current ∧ told p current ≤ Decimal.greatest := by
  have hends : Decimal.least ≤ Decimal.greatest := by decide
  unfold told Binary64.toInt
  omega

theorem ofObservations_cases (previous : Option EventInfo) (current : EventInfo) :
    ofObservations previous current = zero ∨ ofObservations previous current = ofInfo current ∨
      ∃ p ∈ previous, current.first ≤ p.last ∧ p.last < current.last ∧
        ((p.first = current.first ∧ 0 ≤ Decimal.wrap (current.count - p.count) ∧
          ofObservations previous current =
            ⟨p.last, current.last, Decimal.wrap (current.count - p.count)⟩) ∨
        (0 < inSeconds (p.last.since p.first) ∧ ofObservations previous current =
          ⟨p.last, current.last, max 0 (Decimal.wrap (current.count - told p current))⟩)) := by
  cases previous with
  | none => exact .inr (.inl rfl)
  | some p =>
    by_cases hgap : p.last < current.first
    · refine .inr (.inl ?_)
      unfold ofObservations
      dsimp only
      rw [if_pos hgap]
    · by_cases hstale : current.last ≤ p.last
      · refine .inl ?_
        unfold ofObservations
        dsimp only
        rw [if_neg hgap, if_pos hstale]
      · have hlast : p.last < current.last := Decidable.not_not.mp hstale
        have heq : ofObservations (some p) current =
            if p.first = current.first then
              if Decimal.wrap (current.count - p.count) < 0 then zero
              else ⟨p.last, current.last, Decimal.wrap (current.count - p.count)⟩
            else if inSeconds (p.last.since p.first) ≤ 0 then zero
            else ⟨p.last, current.last, max 0 (Decimal.wrap (current.count - told p current))⟩ := by
          unfold ofObservations
          dsimp only
          rw [if_neg hgap, if_neg hstale]
        by_cases hfirst : p.first = current.first
        · by_cases hgrown : Decimal.wrap (current.count - p.count) < 0
          · exact .inl (by rw [heq, if_pos hfirst, if_pos hgrown])
          · exact .inr (.inr ⟨p, rfl, hgap, hlast, .inl ⟨hfirst, Int.not_lt.mp hgrown,
              by rw [heq, if_pos hfirst, if_neg hgrown]⟩⟩)
        · by_cases hspan : inSeconds (p.last.since p.first) ≤ 0
          · exact .inl (by rw [heq, if_neg hfirst, if_pos hspan])
          · exact .inr (.inr ⟨p, rfl, hgap, hlast, .inr ⟨not_le.mp hspan,
              by rw [heq, if_neg hfirst, if_neg hspan]⟩⟩)

theorem count_ofObservations_nonneg (previous : Option EventInfo) (hcurrent : 0 ≤ current.count) :
    0 ≤ (ofObservations previous current).count := by
  rcases ofObservations_cases previous current with
    heq | heq | ⟨p, -, -, -, ⟨-, hgrown, heq⟩ | ⟨-, heq⟩⟩ <;> rw [heq]
  · exact Int.le_refl 0
  · exact hcurrent
  · exact hgrown
  · exact Int.le_max_left 0 _

theorem followsLeap_of_told_neg {p : EventInfo} (hcount : 0 ≤ p.count)
    (hle : current.first ≤ p.last) (hspan : 0 < inSeconds (p.last.since p.first))
    (htold : told p current < 0) : p.last.FollowsLeap current.first := by
  have hneg : p.last.since current.first < 0 := by
    refine Int.not_le.mp fun hoverlap => Int.not_le.mpr htold ?_
    refine Binary64.toInt_nonneg (Binary64.nearest_nonneg (div_nonneg ?_ hspan.le))
    exact Binary64.nearest_nonneg (mul_nonneg
      (Binary64.nearest_nonneg (by exact_mod_cast hcount)) (inSeconds_nonneg hoverlap))
  by_cases hlt : current.first < p.last
  · exact (Instant.since_neg_iff hlt).mp hneg
  · -- The time between equal instants is zero.
    rw [Instant.eq_of_le_of_le hle hlt] at hneg
    simp [Instant.since] at hneg

/-- For counts of 64 bits that are not negative, a difference `Overflows` only where `told` is below
zero. -/
theorem followsLeap_of_overflows (hprevious : ∀ p ∈ previous, 0 ≤ p.count ∧
      p.count ≤ Decimal.greatest)
    (hcurrent : 0 ≤ current.count ∧ current.count ≤ Decimal.greatest)
    (h : Overflows previous current) : ∃ p ∈ previous, p.last.FollowsLeap current.first := by
  obtain ⟨p, hp, hle, -, ⟨-, hbeyond⟩ | ⟨-, hspan, hbeyond⟩⟩ := h
  · rw [Decimal.fits_sub hcurrent (hprevious p hp)] at hbeyond
    cases hbeyond
  · refine ⟨p, hp, followsLeap_of_told_neg (hprevious p hp).1 hle hspan ?_⟩
    refine Int.not_le.mp fun htold => ?_
    rw [Decimal.fits_sub hcurrent ⟨htold, (told_fits p current).2⟩] at hbeyond
    cases hbeyond

/-- **What an observation adds is contained in it.** For counts of 64 bits that are not negative, it
is not negative; and if it is not zero, it ends with the observation, and starts with it or where
the one before ended, which is not before the observation does, and not after its end unless the
observation ends before it starts. It counts more than the observation tells, or a difference of
counts `Overflows`, only if the observation starts in the leap second at the end of a day, and the
one before ended in the first second of the next day, by less after its start. -/
theorem ofObservations_contained
    (hprevious : ∀ p ∈ previous, 0 ≤ p.count ∧ p.count ≤ Decimal.greatest)
    (hcurrent : 0 ≤ current.count ∧ current.count ≤ Decimal.greatest)
    (hd : ofObservations previous current = d) :
    0 ≤ d.count ∧
      (0 < d.count → d.last = current.last ∧
        (d.first = current.first ∨ ∃ p ∈ previous, d.first = p.last) ∧
        current.first ≤ d.first ∧ (current.first ≤ current.last → d.first ≤ d.last)) ∧
      (current.count < d.count → ∃ p ∈ previous, p.last.FollowsLeap current.first) ∧
      (Overflows previous current → ∃ p ∈ previous, p.last.FollowsLeap current.first) := by
  subst hd
  refine ⟨count_ofObservations_nonneg previous hcurrent.1, ?_, ?_,
    followsLeap_of_overflows hprevious hcurrent⟩
  · rcases ofObservations_cases previous current with
      heq | heq | ⟨p, hp, hle, hlast, ⟨-, -, heq⟩ | ⟨-, heq⟩⟩ <;> rw [heq]
    · exact fun h => absurd h (Int.lt_irrefl 0)
    · exact fun _ => ⟨rfl, .inl rfl, StrictOrder.irrefl _, id⟩
    · exact fun _ => ⟨rfl, .inr ⟨p, hp, rfl⟩, hle, fun _ => Instant.le_of_lt hlast⟩
    · exact fun _ => ⟨rfl, .inr ⟨p, hp, rfl⟩, hle, fun _ => Instant.le_of_lt hlast⟩
  · intro hmore
    rcases ofObservations_cases previous current with
      heq | heq | ⟨p, hp, hle, -, ⟨-, -, heq⟩ | ⟨hspan, heq⟩⟩ <;> rw [heq] at hmore
    · exact absurd hmore (Int.not_lt.mpr hcurrent.1)
    · exact absurd hmore (Int.lt_irrefl _)
    · have hpcount := hprevious p hp
      have hgrown := Decimal.wrap_of_fits (Decimal.fits_sub hcurrent hpcount)
      dsimp only at hmore
      omega
    · have hends : Decimal.least + Decimal.greatest ≤ 0 := by decide
      have htold := told_fits p current
      -- A difference that is too large comes out smaller, so this one is larger than the count.
      have hle' : Decimal.wrap (current.count - told p current) ≤ current.count - told p current :=
        Decimal.wrap_le (by omega)
      dsimp only at hmore
      exact ⟨p, hp, followsLeap_of_told_neg (hprevious p hp).1 hle hspan (by omega)⟩

/-- Ten failures in two minutes. -/
def failing : EventInfo where
  reason := "BackOff"
  type := "Warning"
  first := Partition.startAt 1546300860
  last := Partition.startAt 1546300980
  count := 10

/-- Six failures in two minutes, of which `failing` has told the first minute. -/
def stillFailing : EventInfo where
  reason := "BackOff"
  type := "Warning"
  first := Partition.startAt 1546300920
  last := Partition.startAt 1546301040
  count := 6

/-- Of the six failures of `stillFailing`, one is left for the second minute. -/
theorem ofObservations_contained_stillFailing :
    (∀ p ∈ some failing, 0 ≤ p.count ∧ p.count ≤ Decimal.greatest) ∧
      (0 ≤ stillFailing.count ∧ stillFailing.count ≤ Decimal.greatest) ∧
      ofObservations (some failing) stillFailing = ⟨failing.last, stillFailing.last, 1⟩ ∧
      stillFailing.first ≤ failing.last ∧ failing.last ≤ stillFailing.last ∧
      ¬ Overflows (some failing) stillFailing ∧
      ¬ failing.last.FollowsLeap stillFailing.first := by
  have hprevious : ∀ p ∈ some failing, 0 ≤ p.count ∧ p.count ≤ Decimal.greatest := by decide
  have hcurrent : 0 ≤ stillFailing.count ∧ stillFailing.count ≤ Decimal.greatest := by decide
  have hsteady : ¬ failing.last.FollowsLeap stillFailing.first := fun h =>
    absurd h.endsDay.1 (by decide)
  have hd : ofObservations (some failing) stillFailing = ⟨failing.last, stillFailing.last, 1⟩ := by
    decide +kernel
  obtain ⟨-, hinside, -, hexact⟩ := ofObservations_contained hprevious hcurrent hd
  obtain ⟨-, -, hfirst, hlast⟩ := hinside (by decide)
  refine ⟨hprevious, hcurrent, hd, hfirst, hlast (by decide), fun h => ?_, hsteady⟩
  obtain ⟨p, hp, hleap⟩ := hexact h
  obtain rfl := Option.some.inj hp
  exact hsteady hleap

/-- Twenty thousand failures in the last hour of a day and the first fifth of a second of the
next. -/
def pastMidnight : EventInfo where
  reason := "BackOff"
  type := "Warning"
  first := Partition.startAt 1546383600
  last := ⟨1546387200, 200000000, by decide, by decide, by decide, by decide⟩
  count := 20000

/-- Five failures from the leap second before the midnight of `pastMidnight` on. -/
def fromLeapSecond : EventInfo where
  reason := "BackOff"
  type := "Warning"
  first := ⟨1546387199, 1500000000, by decide, by decide, by decide, by decide⟩
  last := Partition.startAt 1546387260
  count := 5

/-- Of five failures from a leap second on, six are counted. -/
theorem ofObservations_leapSecond : ¬ ∀ (previous : Option EventInfo) (current : EventInfo),
    (∀ p ∈ previous, 0 ≤ p.count ∧ p.count ≤ Decimal.greatest) →
      (0 ≤ current.count ∧ current.count ≤ Decimal.greatest) →
      (ofObservations previous current).count ≤ current.count := by
  intro h
  have hsix : (ofObservations (some pastMidnight) fromLeapSecond).count = 6 := by decide +kernel
  have hcount := h (some pastMidnight) fromLeapSecond (by decide) (by decide)
  rw [hsix] at hcount
  exact absurd hcount (by decide)

/-- As many failures as 64 bits count, in the millisecond in which `pastMidnight` ends. -/
def inAMillisecond : EventInfo :=
  { pastMidnight with
    first := ⟨1546387200, 199000000, by decide, by decide, by decide, by decide⟩
    count := Decimal.greatest }

/-- After `inAMillisecond`, what `fromLeapSecond` tells twice is as far below zero as 64 bits count,
and nothing is left of it. -/
example : told inAMillisecond fromLeapSecond = Decimal.least ∧
    (ofObservations (some inAMillisecond) fromLeapSecond).count = 0 := by
  decide +kernel

end WatchHistory.EventDelta
