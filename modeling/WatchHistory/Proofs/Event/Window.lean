import WatchHistory.Proofs.Event.Minutes
import WatchHistory.Proofs.Fallible
import WatchHistory.Proofs.Partition.Id

/-!
# The window of what is counted

For bounds that are ids of twelve digits on the grid of the granularity, the window reaches from the
start of the oldest partition, or of the one after it if there are several, to the end of the newest
one. It can be told exactly if that end still has an id of twelve digits (`clip_eq`,
`clip_of_not_inRange`).

What is left of a delta is counted in partitions of the window (`mem_entries_groups_clip`), and a
delta within the window is left as it is (`truncate_of_le`, `clampEnd_of_le`).
-/

set_option autoImplicit false

namespace WatchHistory

open WatchHistory.Partition

namespace Granularity

variable (g : Granularity)

theorem next_idAt {s : Int} (h : InRange s) (hdvd : g.seconds ∣ s) :
    g.next (idAt s) = .ok (idAt (s + g.seconds)) := by
  have hpos := g.seconds_pos
  have hle := g.seconds_le
  have h₁ : 0 ≤ s := h.1
  have h₂ : s < 1000000000000 := h.2
  have hshift : ((startAt s).shift g.seconds).seconds = s + g.seconds := by
    unfold Instant.shift
    have hnanos : (startAt s).nanos < billion := by rw [nanos_startAt]; decide
    rw [if_neg (by omega), dif_pos hnanos, seconds_startAt h]
    show max (-8334601228800) (min 8210266876799 (s + g.seconds)) = s + g.seconds
    omega
  unfold next interval
  rw [start_idAt h]
  show Except.ok (g.partitionOf ((startAt s).shift g.seconds)) = _
  rw [partitionOf, hshift, g.floor_of_dvd (Int.dvd_add hdvd (Int.dvd_refl _))]

end Granularity

namespace EventDelta

variable {g : Granularity} {oldest newest : Int}

/-- The second from which on events may be counted in the partitions from one start to another. -/
def windowStart (g : Granularity) (oldest newest : Int) : Int :=
  if oldest = newest then oldest else oldest + g.seconds

theorem windowStart_spec (ho : InRange oldest) (hod : g.seconds ∣ oldest) (hn : InRange newest)
    (hnd : g.seconds ∣ newest) (hle : oldest ≤ newest) :
    InRange (windowStart g oldest newest) ∧ g.seconds ∣ windowStart g oldest newest ∧
      oldest ≤ windowStart g oldest newest ∧ windowStart g oldest newest ≤ newest := by
  have hpos := g.seconds_pos
  unfold windowStart
  split
  · exact ⟨ho, hod, Int.le_refl _, hle⟩
  · next hne =>
    have hnext := g.add_seconds_le hod hnd (by omega)
    exact ⟨⟨Int.le_trans ho.1 (by omega), Int.lt_of_le_of_lt hnext hn.2⟩,
      Int.dvd_add hod (Int.dvd_refl _), by omega, hnext⟩

theorem truncationPoint_eq (ho : InRange oldest) (hod : g.seconds ∣ oldest) (hn : InRange newest)
    (hnd : g.seconds ∣ newest) (hle : oldest ≤ newest) (last : Instant) :
    truncationPoint g last (some (idAt oldest, idAt newest)) =
      .ok (startAt (windowStart g oldest newest)) := by
  have hwindow := (windowStart_spec ho hod hn hnd hle).1
  unfold truncationPoint windowStart at *
  dsimp only
  by_cases hsame : oldest = newest
  · rw [if_pos (congrArg idAt hsame), if_pos hsame, start_idAt ho]
  · rw [if_neg hsame] at hwindow ⊢
    rw [if_neg fun h => hsame (idAt_injective ho hn h), g.next_idAt ho hod]
    exact start_idAt hwindow

/-! ## Cutting -/

theorem truncate_of_le {d : EventDelta} {start : Instant} (h : start ≤ d.first) :
    d.truncate start = d := by
  rw [truncate, if_pos h]

theorem clampEnd_of_le {d : EventDelta} {stop : Instant} (h : d.last ≤ stop) :
    d.clampEnd stop = d := by
  rw [clampEnd, if_pos h]

theorem le_first_truncate (d : EventDelta) (start : Instant) :
    start ≤ (d.truncate start).first := by
  unfold truncate
  split
  · assumption
  · split <;> exact StrictOrder.irrefl start

theorem first_clampEnd (d : EventDelta) (stop : Instant) :
    (d.clampEnd stop).first = d.first ∨ (d.clampEnd stop).count = 0 := by
  unfold clampEnd
  split
  · exact .inl rfl
  · split
    · exact .inr rfl
    · exact .inl rfl

end EventDelta

namespace Intake

variable {g : Granularity} {oldest newest : Int}

/-- `clip` cuts to the window of the bounds, if the partition after the newest one has an id of
twelve digits. -/
theorem clip_eq (ho : InRange oldest) (hod : g.seconds ∣ oldest) (hn : InRange newest)
    (hnd : g.seconds ∣ newest) (hle : oldest ≤ newest) (hnext : InRange (newest + g.seconds))
    (d : EventDelta) :
    clip g (idAt oldest, idAt newest) d =
      .ok ((d.truncate (startAt (EventDelta.windowStart g oldest newest))).clampEnd
        (startAt (newest + g.seconds)), newest + g.seconds - 60) := by
  unfold clip
  rw [EventDelta.truncationPoint_eq ho hod hn hnd hle, g.next_idAt hn hnd]
  show (do let stop ← Partition.start (idAt (newest + g.seconds)); _) = _
  rw [start_idAt hnext]
  show Except.ok (_, (startAt (newest + g.seconds)).seconds - 60) = _
  rw [seconds_startAt hnext]

theorem clip_of_not_inRange (ho : InRange oldest) (hod : g.seconds ∣ oldest) (hn : InRange newest)
    (hnd : g.seconds ∣ newest) (hle : oldest ≤ newest) (hnext : ¬ InRange (newest + g.seconds))
    (d : EventDelta) :
    clip g (idAt oldest, idAt newest) d = .error (.badPartition (idAt (newest + g.seconds))) := by
  unfold clip
  rw [EventDelta.truncationPoint_eq ho hod hn hnd hle, g.next_idAt hn hnd]
  show (do let stop ← Partition.start (idAt (newest + g.seconds)); _) = _
  rw [start_idAt_of_not hnext]
  rfl

theorem inRange_of_clip {d : EventDelta} {found : EventDelta × Int}
    (h : clip g (idAt oldest, idAt newest) d = .ok found) : InRange oldest ∧ InRange newest := by
  have hread : ∀ {s : Int} {t : Instant}, Partition.start (idAt s) = .ok t → InRange s :=
    fun ht => start_idAt_iff.mp ⟨_, ht⟩
  have hnext : ∀ {s : Int} {id : String}, g.next (idAt s) = .ok id → InRange s := by
    intro s id hid
    obtain ⟨_, hinterval, -⟩ := bind_eq_ok.mp hid
    obtain ⟨_, ht, -⟩ := bind_eq_ok.mp hinterval
    exact hread ht
  obtain ⟨_, hpoint, h⟩ := bind_eq_ok.mp h
  obtain ⟨_, hid, -⟩ := bind_eq_ok.mp h
  refine ⟨?_, hnext hid⟩
  unfold EventDelta.truncationPoint at hpoint
  dsimp only at hpoint
  split at hpoint
  · exact hread hpoint
  · obtain ⟨_, hid, -⟩ := bind_eq_ok.mp hpoint
    exact hnext hid

/-- Where `clip` succeeds, the bounds have ids of twelve digits and the cut is that of their
window. -/
theorem window_of_clip (hod : g.seconds ∣ oldest) (hnd : g.seconds ∣ newest)
    (hle : ¬ idAt newest < idAt oldest) {d clipped : EventDelta} {lastMinute : Int}
    (h : clip g (idAt oldest, idAt newest) d = .ok (clipped, lastMinute)) :
    InRange oldest ∧ InRange newest ∧ oldest ≤ newest ∧
      clipped = (d.truncate (startAt (EventDelta.windowStart g oldest newest))).clampEnd
        (startAt (newest + g.seconds)) ∧ lastMinute = newest + g.seconds - 60 := by
  obtain ⟨ho, hn⟩ := inRange_of_clip h
  rw [idAt_lt_idAt_iff hn ho, Int.not_lt] at hle
  have hnext : InRange (newest + g.seconds) := by
    apply Decidable.byContradiction
    intro hnext
    cases h.symm.trans (clip_of_not_inRange ho hod hn hnd hle hnext d)
  cases h.symm.trans (clip_eq ho hod hn hnd hle hnext d)
  exact ⟨ho, hn, hle, rfl, rfl⟩

theorem mem_entries_foldMinutes_clip (ho : InRange oldest) (hod : g.seconds ∣ oldest)
    (hn : InRange newest) (hnd : g.seconds ∣ newest) (hle : oldest ≤ newest) {d : EventDelta}
    {minute count : Int}
    (h : (minute, count) ∈ (foldMinutes (newest + g.seconds - 60)
      ((d.truncate (startAt (EventDelta.windowStart g oldest newest))).clampEnd
        (startAt (newest + g.seconds))).spread).entries) :
    EventDelta.windowStart g oldest newest ≤ minute ∧ minute < newest + g.seconds := by
  obtain ⟨⟨⟨m, c⟩, hbucket, rfl⟩, -⟩ := mem_entries_foldMinutes h
  obtain ⟨hfirst, -, -, hpos, hneg⟩ := EventDelta.mem_spread hbucket
  obtain ⟨hrange, hdvd, -, hstop⟩ := EventDelta.windowStart_spec ho hod hn hnd hle
  have hgrid := g.sixty_dvd_seconds
  have hsixty : (60 : Int) ≤ g.seconds := Int.le_of_dvd g.seconds_pos hgrid
  have hsame := (EventDelta.first_clampEnd (d.truncate (startAt (EventDelta.windowStart g oldest
    newest))) (startAt (newest + g.seconds))).resolve_right fun hzero => by
      have := hpos (Int.le_of_eq hzero.symm)
      have := hneg (Int.le_of_eq hzero)
      omega
  rw [hsame] at hfirst
  have hle' := EventDelta.le_first_truncate d (startAt (EventDelta.windowStart g oldest newest))
  have hseconds := Instant.seconds_le_of_le hle'
  rw [seconds_startAt hrange] at hseconds
  have hminute := EventDelta.le_nearestMinute (Int.dvd_trans hgrid hdvd) hseconds
  dsimp only
  omega

/-- The partitions in which a delta is counted are in the window of the bounds. -/
theorem mem_entries_groups_clip (hod : g.seconds ∣ oldest) (hnd : g.seconds ∣ newest)
    (hle : ¬ idAt newest < idAt oldest) {d clipped : EventDelta} {lastMinute : Int}
    (hclip : clip g (idAt oldest, idAt newest) d = .ok (clipped, lastMinute)) {p : String}
    {buckets : List (Int × Int)}
    (h : (p, buckets) ∈ (groupMinutes g (foldMinutes lastMinute clipped.spread)).entries) :
    ∃ second, p = idAt second ∧ InRange second ∧ g.seconds ∣ second ∧
      EventDelta.windowStart g oldest newest ≤ second ∧ second ≤ newest := by
  obtain ⟨ho, hn, hle, rfl, rfl⟩ := window_of_clip hod hnd hle hclip
  obtain ⟨hrange, hdvd, -⟩ := EventDelta.windowStart_spec ho hod hn hnd hle
  obtain ⟨hne, rfl⟩ := mem_entries_groupMinutes h
  obtain ⟨⟨minute, count⟩, hbucket⟩ := List.exists_mem_of_ne_nil _ hne
  obtain ⟨hmem, hp⟩ := List.mem_filter.mp hbucket
  obtain ⟨t, -, rfl⟩ := partitionOfMinute?_eq_some_iff.mp (of_decide_eq_true hp)
  obtain ⟨hfirst, hlast⟩ := mem_entries_foldMinutes_clip ho hod hn hnd hle hmem
  have hge : EventDelta.windowStart g oldest newest ≤ g.floor minute := g.le_floor hdvd hfirst
  have hle' : g.floor minute ≤ newest := by
    apply Int.not_lt.mp
    intro hlt
    have := g.add_seconds_le hnd (g.dvd_floor minute) hlt
    have := g.floor_le minute
    omega
  exact ⟨_, rfl, ⟨Int.le_trans hrange.1 hge, Int.lt_of_le_of_lt hle' hn.2⟩, g.dvd_floor minute,
    hge, hle'⟩

end Intake

end WatchHistory
