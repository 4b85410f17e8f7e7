import WatchHistory.Proofs.Event.Counting

/-!
# An event told twice

An observation of an event that tells what the one before it told adds nothing, unless the event
ends before it starts: then the end of the one before comes before the start, as if the event had
happened again (`EventDelta.ofObservations_self`). What is added then is all of it, but only in one
minute: `EventInfo.Recounted` says when there is one, and `minutes_ne_zero_iff` that this is when
the event is counted again.
-/

set_option autoImplicit false

namespace WatchHistory

open WatchHistory.Partition

namespace EventDelta

variable {d : EventDelta}

theorem ofObservations_self (e : EventInfo) :
    ofObservations (some e) e = if e.last < e.first then ofInfo e else zero := by
  have hle : e.last ≤ e.last := StrictOrder.irrefl e.last
  unfold ofObservations
  dsimp only
  rw [if_pos hle]

/-! ## Deltas that end before they start -/

theorem spread_of_count_eq_zero (h : d.count = 0) : d.spread = [] := by
  unfold spread
  exact if_pos (.inl h)

/-- A delta that ends before it starts is put into one minute if both ends are nearest to that one,
and else lost. -/
theorem spread_of_inverted (h : d.last < d.first) (hcount : d.count ≠ 0) :
    d.spread = if nearestMinute d.first = nearestMinute d.last then
      [(nearestMinute d.first, d.count)] else [] := by
  have hmono := nearestMinute_mono (Instant.le_of_lt h)
  unfold spread
  dsimp only
  by_cases hminute : nearestMinute d.first = nearestMinute d.last
  · rw [if_neg fun hnone => hnone.elim hcount fun hlt => by omega, if_pos hminute, hminute,
      Int.sub_self]
    simp [distribute, hcount]
  · rw [if_pos (.inr (by omega)), if_neg hminute]

/-- Cutting a delta that ends before it starts leaves nothing of it, if it does not leave it
whole. -/
theorem count_cut_of_inverted (h : d.last < d.first) {start stop : Instant}
    (hcut : ¬ (start ≤ d.first ∧ d.last ≤ stop)) :
    ((d.truncate start).clampEnd stop).count = 0 := by
  by_cases hstart : start ≤ d.first
  · have hstop : stop < d.last := Decidable.not_not.mp fun hstop => hcut ⟨hstart, hstop⟩
    rw [truncate_of_le hstart, clampEnd, if_neg fun hle => hle hstop,
      if_pos (Instant.le_of_lt (StrictOrder.trans hstop h))]
  · have hstart' : d.first < start := Decidable.not_not.mp hstart
    rw [truncate, if_neg hstart, if_pos (Instant.le_of_lt (StrictOrder.trans h hstart'))]
    unfold clampEnd
    split
    · rfl
    · next hstop => rw [if_pos (Instant.le_of_lt (Decidable.not_not.mp hstop))]

end EventDelta

/-- Whether an event ends before it starts, and there is one minute of a store that both ends are
nearest to. -/
structure EventInfo.Recounted (e : EventInfo) (g : Granularity) (s : Store) : Prop where
  inverted : e.last < e.first
  nearest_eq : EventDelta.nearestMinute e.first = EventDelta.nearestMinute e.last
  count_ne : e.count ≠ 0
  first_ne : e.first ≠ .epoch
  last_ne : e.last ≠ .epoch
  within : s.Within g e.first e.last

namespace Intake

open EventDelta

variable {g : Granularity} {r : Intake} {s s' : Store} {d clipped : EventDelta} {lastMinute : Int}

/-! ## Minutes of partitions -/

theorem exists_partitionOfMinute? {minute : Int} (hfirst : -8334601228800 ≤ minute)
    (hlast : minute ≤ 8210266876799) : ∃ p, partitionOfMinute? g minute = some p := by
  have htime : Instant.ofSeconds? minute =
      some ⟨minute, 0, hfirst, hlast, by decide, nofun⟩ :=
    Instant.of?_eq_some_iff.mpr ⟨rfl, rfl⟩
  exact ⟨_, partitionOfMinute?_eq_some_iff.mpr ⟨_, htime, rfl⟩⟩

theorem groups_ne_nil (hsum : (d.spread.map Prod.snd).sum ≠ 0)
    (hminutes : ∀ bucket ∈ d.spread, ∃ p, partitionOfMinute? g (min bucket.1 lastMinute) = some p) :
    (groups g lastMinute d).entries ≠ [] := by
  intro hnil
  apply hsum
  rw [← sumBy_foldMinutes lastMinute, ← sumBy_groupMinutes (g := g)]
  · show (groups g lastMinute d).sumBy _ = 0
    rw [SortedMap.sumBy, hnil]
    rfl
  · rintro ⟨minute, count⟩ hmem
    obtain ⟨⟨bucket, hbucket, rfl⟩, -⟩ := mem_entries_foldMinutes hmem
    exact hminutes bucket hbucket

theorem groups_of_spread_eq_nil (h : d.spread = []) : (groups g lastMinute d).entries = [] := by
  rw [groups, h]
  rfl

theorem length_groups_eq_zero_iff :
    (groups g lastMinute d).values.foldr (fun buckets n => buckets.length + n) 0 = 0 ↔
      (groups g lastMinute d).entries = [] := by
  rw [SortedMap.values]
  cases hgroups : (groups g lastMinute d).entries with
  | nil => simp
  | cons group rest =>
    have hmem : (group.1, group.2) ∈ (groups g lastMinute d).entries :=
      hgroups ▸ List.mem_cons_self
    have hlength := List.length_pos_iff.mpr (mem_entries_groupMinutes hmem).1
    rw [List.map_cons, List.foldr_cons]
    refine iff_of_false ?_ (List.cons_ne_nil _ _)
    omega

theorem clip_eq_ok_iff {bounds : String × String} :
    clip g bounds d = .ok (clipped, lastMinute) ↔ ∃ start next stop,
      truncationPoint g d.last (some bounds) = .ok start ∧ g.next bounds.2 = .ok next ∧
      Partition.start next = .ok stop ∧ clipped = (d.truncate start).clampEnd stop ∧
      lastMinute = stop.seconds - 60 := by
  unfold clip
  simp only [bind_eq_ok, pure, Except.pure, Except.ok.injEq, Prod.mk.injEq]
  constructor
  · rintro ⟨start, hstart, next, hnext, stop, hstop, hclipped, hlast⟩
    exact ⟨start, next, stop, hstart, hnext, hstop, hclipped.symm, hlast.symm⟩
  · rintro ⟨start, next, stop, hstart, hnext, hstop, hclipped, hlast⟩
    exact ⟨start, hstart, next, hnext, stop, hstop, hclipped.symm, hlast.symm⟩

theorem inRange_of_truncationPoint {last start : Instant} {bounds : String × String}
    (h : truncationPoint g last (some bounds) = .ok start) : InRange start.seconds := by
  unfold truncationPoint at h
  dsimp only at h
  split at h
  · exact (eq_idAt_of_start h).2.1
  · obtain ⟨_, -, h⟩ := bind_eq_ok.mp h
    exact (eq_idAt_of_start h).2.1

/-! ## Counting again -/

theorem groups_ne_nil_of_inverted {start stop : Instant} (hstart : InRange start.seconds)
    (hstop : InRange stop.seconds) (h : d.last < d.first) (hcount : d.count ≠ 0)
    (hminute : nearestMinute d.first = nearestMinute d.last) (hle : start ≤ d.first) :
    (groups g (stop.seconds - 60) d).entries ≠ [] := by
  have hspread := spread_of_inverted h hcount
  rw [if_pos hminute] at hspread
  refine groups_ne_nil (by simpa [hspread] using hcount) fun bucket hbucket => ?_
  rw [hspread, List.mem_singleton] at hbucket
  subst hbucket
  obtain ⟨hstart, -⟩ := hstart
  obtain ⟨hstop, hlimit⟩ := hstop
  unfold idLimit at hlimit
  have hzero := le_nearestMinute (s := 0) (by decide)
    (Int.le_trans hstart (Instant.seconds_le_of_le hle))
  apply exists_partitionOfMinute? <;> dsimp only <;> omega

/-- **An event that was told before** is counted again exactly if it is `Recounted`: it ends before
it starts, with both ends nearest to one minute of the store. -/
theorem minutes_ne_zero_iff {e : EventInfo} {minutes : Nat}
    (hkind : r.observation.kind = Payload.eventKind)
    (he : EventInfo.ofPayload r.observation.payload = .ok e)
    (hprevious : r.previousEvent? g s = .ok (some e))
    (hcount : r.countEvent g s = .ok (s', minutes)) : minutes ≠ 0 ↔ e.Recounted g s := by
  have hself := ofObservations_self e
  rcases (countEvent_eq_ok hkind).mp hcount with
    ⟨hnone, -, rfl⟩ | ⟨reason, delta, lastMinute, hcounted, -, rfl⟩
  · refine iff_of_false (fun h => h rfl) fun h => ?_
    obtain ⟨min, max, start, next, stop, hbounds, hstart, -, hnext, hstop, -⟩ := h.within
    rw [if_pos h.inverted] at hself
    have hcounted := counted?_eq_some_iff.mpr ⟨e, some e, (min, max), he, hprevious,
      fun hepoch => hepoch.elim h.first_ne h.last_ne, by rw [hself]; exact h.count_ne, hbounds,
      clip_eq_ok_iff.mpr ⟨start, next, stop, by rw [hself]; exact hstart, hnext, hstop, rfl, rfl⟩,
      rfl⟩
    rw [hnone] at hcounted
    cases hcounted
  · obtain ⟨current, previous, bounds, hcurrent, hprevious', hepoch, hne, hbounds, hclip, -⟩ :=
      counted?_eq_some_iff.mp hcounted
    obtain rfl := Except.ok.inj (he.symm.trans hcurrent)
    obtain rfl := Except.ok.inj (hprevious.symm.trans hprevious')
    have hinverted : e.last < e.first := by
      apply Decidable.byContradiction
      intro hnot
      rw [if_neg hnot] at hself
      exact hne (hself ▸ rfl)
    rw [if_pos hinverted] at hself
    rw [hself] at hclip hne
    obtain ⟨start, next, stop, hstart, hnext, hstop, rfl, rfl⟩ := clip_eq_ok_iff.mp hclip
    rw [Ne, length_groups_eq_zero_iff]
    constructor
    · intro hgroups
      have hcut : start ≤ e.first ∧ e.last ≤ stop := Decidable.byContradiction fun hcut =>
        hgroups (groups_of_spread_eq_nil (spread_of_count_eq_zero
          (count_cut_of_inverted (d := ofInfo e) hinverted hcut)))
      refine ⟨hinverted, ?_, hne, fun h => hepoch (.inl h), fun h => hepoch (.inr h),
        bounds.1, bounds.2, start, next, stop, hbounds, hstart, hcut.1, hnext, hstop, hcut.2⟩
      apply Decidable.byContradiction
      intro hminute
      apply hgroups
      rw [truncate_of_le hcut.1, clampEnd_of_le hcut.2]
      apply groups_of_spread_eq_nil
      rw [spread_of_inverted hinverted hne]
      exact if_neg hminute
    · rintro ⟨-, hminute, -, -, -, min, max, start', next', stop', hbounds', hstart', hle, hnext',
        hstop', hle'⟩
      obtain rfl := Option.some.inj (Except.ok.inj (hbounds'.symm.trans hbounds))
      obtain rfl := Except.ok.inj (hstart'.symm.trans hstart)
      obtain rfl := Except.ok.inj (hnext'.symm.trans hnext)
      obtain rfl := Except.ok.inj (hstop'.symm.trans hstop)
      rw [truncate_of_le hle, clampEnd_of_le hle']
      exact groups_ne_nil_of_inverted (inRange_of_truncationPoint hstart)
        (eq_idAt_of_start hstop).2.1 hinverted hne hminute hle

end Intake

end WatchHistory
