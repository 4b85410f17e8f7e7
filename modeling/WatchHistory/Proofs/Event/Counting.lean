import WatchHistory.Proofs.Event.Ledger
import WatchHistory.Proofs.Event.Window

/-!
# Counting one event

What an event adds is counted in full if it lies within the window of the store (`Store.Within`):
not before the instant from which on events may be counted, and not after the end of the newest
partition. Then nothing is cut off (`Framed.clip_eq_self`), the groups of the minutes add up to
the count of the delta (`Framed.sum_groups`), and `countEvent_conserves` adds that count to the
total of the object and the reason of the event, and to no other.
-/

set_option autoImplicit false

namespace WatchHistory

open WatchHistory.Partition

/-- Whether what happened from one instant to another lies within the window of a store: not before
the truncation point, and not after the end of the newest partition, where the next one starts. -/
def Store.Within (s : Store) (g : Granularity) (since last : Instant) : Prop :=
  ∃ min max start next stop, s.bounds = .ok (some (min, max)) ∧
    EventDelta.truncationPoint g last (some (min, max)) = .ok start ∧ start ≤ since ∧
    g.next max = .ok next ∧ Partition.start next = .ok stop ∧ last ≤ stop

theorem Store.within_of_bounds {g : Granularity} {s : Store} {second : Int} {since last : Instant}
    (hrange : InRange second) (hdvd : g.seconds ∣ second) (hnext : InRange (second + g.seconds))
    (hbounds : s.bounds = .ok (some (idAt second, idAt second)))
    (hsince : startAt second ≤ since) (hlast : last ≤ startAt (second + g.seconds)) :
    s.Within g since last :=
  ⟨_, _, _, _, _, hbounds, EventDelta.truncationPoint_eq hrange hdvd hrange hdvd (Int.le_refl _)
    last, by rw [EventDelta.windowStart, if_pos rfl]; exact hsince, g.next_idAt hrange hdvd,
    start_idAt hnext, hlast⟩

/-- The window of a store from the second at which its oldest partition starts to the one at which
its newest does, with a span of time in it. -/
structure Framed (g : Granularity) (s : Store) (since last : Instant) (oldest newest : Int) :
    Prop where
  bounds : s.bounds = .ok (some (idAt oldest, idAt newest))
  inRange_oldest : InRange oldest
  dvd_oldest : g.seconds ∣ oldest
  inRange_newest : InRange newest
  dvd_newest : g.seconds ∣ newest
  le : oldest ≤ newest
  inRange_next : InRange (newest + g.seconds)
  start_le : startAt (EventDelta.windowStart g oldest newest) ≤ since
  le_stop : last ≤ startAt (newest + g.seconds)
  le_newest : ∀ t p, s.Holds t p →
    ∃ second, p = idAt second ∧ InRange second ∧ g.seconds ∣ second ∧ second ≤ newest

section

variable {g : Granularity} {object : InvolvedObject} {reason : String} {room : Int} {s : Store}
  {since last : Instant} {oldest newest : Int}

theorem Ledger.of_holds (h : Ledger g object reason room s) {t : Table} {p : String}
    (hp : s.Holds t p) : ∃ second, p = idAt second ∧ InRange second ∧ g.seconds ∣ second := by
  obtain ⟨key, text, htext, hfiled⟩ := hp
  obtain ⟨u, second, hfiled', hrange, hdvd⟩ := h.filed key text htext
  obtain ⟨-, rfl⟩ := hfiled.unique hfiled'
  exact ⟨second, rfl, hrange, hdvd⟩

theorem Ledger.framed (h : Ledger g object reason room s) (hwithin : s.Within g since last) :
    ∃ oldest newest, Framed g s since last oldest newest := by
  obtain ⟨min, max, start, next, stop, hbounds, hstart, hle, hnext, hstop, hlast⟩ := hwithin
  obtain ⟨⟨t, hmin⟩, ⟨u, hmax⟩, hall⟩ := Store.spans_of_bounds h.keyed hbounds
  obtain ⟨oldest, rfl, hrange, hdvd⟩ := h.of_holds hmin
  obtain ⟨newest, rfl, hrange', hdvd'⟩ := h.of_holds hmax
  have hordered : oldest ≤ newest := by
    have hnot := (hall _ ⟨u, hmax⟩).1
    rw [idAt_lt_idAt_iff hrange' hrange] at hnot
    omega
  rw [EventDelta.truncationPoint_eq hrange hdvd hrange' hdvd' hordered] at hstart
  cases hstart
  rw [g.next_idAt hrange' hdvd'] at hnext
  cases hnext
  have hinRange := start_idAt_iff.mp ⟨stop, hstop⟩
  rw [start_idAt hinRange] at hstop
  cases hstop
  refine ⟨oldest, newest, hbounds, hrange, hdvd, hrange', hdvd', hordered, hinRange, hle, hlast,
    fun t p hp => ?_⟩
  obtain ⟨second, rfl, hrange'', hdvd''⟩ := h.of_holds hp
  refine ⟨second, rfl, hrange'', hdvd'', ?_⟩
  have hnot := (hall _ ⟨t, hp⟩).2
  rw [idAt_lt_idAt_iff hrange' hrange''] at hnot
  omega

namespace Framed

theorem clip_eq_self (h : Framed g s since last oldest newest) (count : Int) :
    Intake.clip g (idAt oldest, idAt newest) ⟨since, last, count⟩ =
      .ok (⟨since, last, count⟩, newest + g.seconds - 60) := by
  rw [Intake.clip_eq h.inRange_oldest h.dvd_oldest h.inRange_newest h.dvd_newest h.le
    h.inRange_next, EventDelta.truncate_of_le h.start_le, EventDelta.clampEnd_of_le h.le_stop]

theorem mem_minutes (h : Framed g s since last oldest newest) {count : Int} {bucket : Int × Int}
    (hbucket : bucket ∈ (Intake.foldMinutes (newest + g.seconds - 60)
      (EventDelta.spread ⟨since, last, count⟩)).entries) :
    oldest ≤ bucket.1 ∧ bucket.1 < newest + g.seconds := by
  obtain ⟨minute, n⟩ := bucket
  rw [← EventDelta.clampEnd_of_le (d := ⟨since, last, count⟩) h.le_stop,
    ← EventDelta.truncate_of_le (d := ⟨since, last, count⟩) h.start_le] at hbucket
  obtain ⟨hfirst, hend⟩ := Intake.mem_entries_foldMinutes_clip h.inRange_oldest h.dvd_oldest
    h.inRange_newest h.dvd_newest h.le hbucket
  have hstart := (EventDelta.windowStart_spec h.inRange_oldest h.dvd_oldest h.inRange_newest
    h.dvd_newest h.le).2.2.1
  exact ⟨Int.le_trans hstart hfirst, hend⟩

theorem mem_groups (h : Framed g s since last oldest newest) {count : Int} (hcount : 0 ≤ count)
    {group : String × List (Int × Int)}
    (hgroup : group ∈ (Intake.groups g (newest + g.seconds - 60) ⟨since, last, count⟩).entries) :
    (∃ second, group.1 = idAt second ∧ InRange second ∧ g.seconds ∣ second) ∧
      ∀ bucket ∈ group.2, Decimal.fits bucket.1 = true ∧ 0 ≤ bucket.2 := by
  obtain ⟨p, buckets⟩ := group
  have hfirst := h.inRange_oldest.1
  have hend := h.inRange_next.2
  unfold idLimit at hend
  constructor
  · have hle : ¬ idAt newest < idAt oldest := by
      rw [idAt_lt_idAt_iff h.inRange_newest h.inRange_oldest]
      exact Int.not_lt.mpr h.le
    obtain ⟨second, hp, hrange, hdvd, -⟩ := Intake.mem_entries_groups_clip h.dvd_oldest
      h.dvd_newest hle (h.clip_eq_self count) hgroup
    exact ⟨second, hp, hrange, hdvd⟩
  · intro bucket hbucket
    obtain ⟨-, rfl⟩ := Intake.mem_entries_groupMinutes hgroup
    have hmem := (List.mem_filter.mp hbucket).1
    obtain ⟨hge, hlt⟩ := h.mem_minutes hmem
    obtain ⟨-, hpos, -⟩ := Intake.mem_entries_foldMinutes hmem
    have hbucket := hpos fun b hb => (EventDelta.mem_spread hb).2.2.2.1 hcount
    refine ⟨Decimal.fits_iff.mpr ⟨?_, ?_⟩, by omega⟩
    · unfold Decimal.least
      omega
    · unfold Decimal.greatest
      omega

theorem sum_groups (h : Framed g s since last oldest newest) (count : Int) :
    ((Intake.groups g (newest + g.seconds - 60) ⟨since, last, count⟩).entries.map fun group =>
      (group.2.map Prod.snd).sum).sum =
        ((EventDelta.spread ⟨since, last, count⟩).map Prod.snd).sum := by
  have hpartition : ∀ bucket ∈ (Intake.foldMinutes (newest + g.seconds - 60)
      (EventDelta.spread ⟨since, last, count⟩)).entries,
      ∃ p, Intake.partitionOfMinute? g bucket.1 = some p := by
    intro bucket hbucket
    obtain ⟨hfirst, hend⟩ := h.mem_minutes hbucket
    have hrange : InRange bucket.1 :=
      ⟨Int.le_trans h.inRange_oldest.1 hfirst, Int.lt_trans hend h.inRange_next.2⟩
    exact ⟨_, Intake.partitionOfMinute?_eq_some_iff.mpr
      ⟨startAt bucket.1, Instant.of?_eq_some_iff.mpr ⟨seconds_startAt hrange, rfl⟩, rfl⟩⟩
  have hgroups := Intake.sumBy_groupMinutes hpartition
  rw [Intake.sumBy_foldMinutes] at hgroups
  exact hgroups

end Framed

end

/-- What an event adds within the window of a store is counted under the event's object and reason
only, if its minutes add up to it. -/
theorem countEvent_adds {g : Granularity} {r : Intake} {s : Store} {room count : Int}
    {current : EventInfo} {previous : Option EventInfo} {since : Instant}
    (h : Ledger g r.involved current.reasonKey room s) (hobject : r.involved.Countable)
    (hkind : r.observation.kind = Payload.eventKind)
    (hcurrent : EventInfo.ofPayload r.observation.payload = .ok current)
    (hprevious : r.previousEvent? g s = .ok previous)
    (hfirst : current.first ≠ .epoch) (hlast : current.last ≠ .epoch)
    (hdelta : EventDelta.ofObservations previous current = ⟨since, current.last, count⟩)
    (hsum : ((EventDelta.spread ⟨since, current.last, count⟩).map Prod.snd).sum = count)
    (hwithin : s.Within g since current.last)
    (hcount : 0 ≤ count) (hcountroom : count ≤ room) (hroom : room ≤ Decimal.greatest) :
    ∃ s' minutes, r.countEvent g s = .ok (s', minutes) ∧
      Ledger g r.involved current.reasonKey (room - count) s' ∧
      ∀ object reason, s'.eventTotal object reason = s.eventTotal object reason +
        if object = r.involved ∧ reason = current.reasonKey then count else 0 := by
  obtain ⟨oldest, newest, hframed⟩ := h.framed hwithin
  have hepoch : ¬ (current.first = .epoch ∨ current.last = .epoch) := not_or.mpr ⟨hfirst, hlast⟩
  by_cases hzero : count = 0
  · subst hzero
    have hcounted : r.counted? g s = .ok none := by
      refine bind_eq_ok.mpr ⟨current, Intake.fromPayload_eq_ok.mpr hcurrent,
        bind_eq_ok.mpr ⟨previous, Intake.fromStore_eq_ok.mpr hprevious, ?_⟩⟩
      rw [if_neg hepoch, hdelta]
      rfl
    refine ⟨s, 0, (Intake.countEvent_eq_ok hkind).mpr (.inl ⟨hcounted, rfl, rfl⟩),
      h.mono (by omega), fun object reason => ?_⟩
    split <;> omega
  · have hcounted : r.counted? g s = .ok (some (current.reasonKey,
        ⟨since, current.last, count⟩, newest + g.seconds - 60)) := by
      refine bind_eq_ok.mpr ⟨current, Intake.fromPayload_eq_ok.mpr hcurrent,
        bind_eq_ok.mpr ⟨previous, Intake.fromStore_eq_ok.mpr hprevious, ?_⟩⟩
      rw [if_neg hepoch, hdelta]
      dsimp only
      rw [if_neg hzero]
      refine bind_eq_ok.mpr ⟨_, Intake.fromStore_eq_ok.mpr hframed.bounds, bind_eq_ok.mpr
        ⟨_, Intake.fromStore_eq_ok.mpr (hframed.clip_eq_self count), rfl⟩⟩
    have hgroups := (hframed.sum_groups count).trans hsum
    obtain ⟨s', hadd, hledger, htotal⟩ := h.addGroups_conserves hobject hroom
      (fun group hgroup => (hframed.mem_groups hcount hgroup).1)
      (fun group hgroup => (hframed.mem_groups hcount hgroup).2) (hgroups.symm ▸ hcountroom)
    rw [hgroups] at hledger htotal
    exact ⟨s', _, (Intake.countEvent_eq_ok hkind).mpr (.inr ⟨_, _, _, hcounted, hadd, rfl⟩),
      hledger, htotal⟩

/-- **What an event adds is counted in full** if it lies within the window of the store, and counted
under the event's object and reason only. -/
theorem countEvent_conserves {g : Granularity} {r : Intake} {s : Store} {room count : Int}
    {current : EventInfo} {previous : Option EventInfo} {since : Instant}
    (h : Ledger g r.involved current.reasonKey room s) (hobject : r.involved.Countable)
    (hkind : r.observation.kind = Payload.eventKind)
    (hcurrent : EventInfo.ofPayload r.observation.payload = .ok current)
    (hprevious : r.previousEvent? g s = .ok previous)
    (hfirst : current.first ≠ .epoch) (hlast : current.last ≠ .epoch)
    (hdelta : EventDelta.ofObservations previous current = ⟨since, current.last, count⟩)
    (hle : since ≤ current.last) (hwithin : s.Within g since current.last)
    (hcount : 0 ≤ count) (hcountroom : count ≤ room) (hroom : room ≤ Decimal.greatest) :
    ∃ s' minutes, r.countEvent g s = .ok (s', minutes) ∧
      Ledger g r.involved current.reasonKey (room - count) s' ∧
      ∀ object reason, s'.eventTotal object reason = s.eventTotal object reason +
        if object = r.involved ∧ reason = current.reasonKey then count else 0 :=
  countEvent_adds h hobject hkind hcurrent hprevious hfirst hlast hdelta
    (EventDelta.sum_spread hcount hle) hwithin hcount hcountroom hroom

end WatchHistory
