import WatchHistory.Proofs.Partition.Id

/-!
# The clock of partitions

The partitions whose ids read are the intervals `[start, start + g)` of the grid. For any instant,
leap seconds and the times before 1970 included:

* `clock_laws`: when its id reads, what is read, which instants share the partition, and that the
  text order of ids is the order of the starts.
-/

set_option autoImplicit false

namespace WatchHistory

open WatchHistory.Partition

namespace Instant

theorem seconds_shift {t : Instant} {delta : Int} (hwhole : t.nanos = 0)
    (hfirst : -8334601228800 ≤ t.seconds + delta) (hlast : t.seconds + delta ≤ 8210266876799) :
    (t.shift delta).seconds = t.seconds + delta := by
  unfold shift
  split
  · next h => omega
  · rw [dif_pos (by rw [hwhole]; decide)]
    show max (-8334601228800) (min 8210266876799 (t.seconds + delta)) = t.seconds + delta
    omega

theorem nanos_shift {t : Instant} {delta : Int} (hwhole : t.nanos = 0) :
    (t.shift delta).nanos = 0 := by
  unfold shift
  split
  · exact hwhole
  · rw [dif_pos (by rw [hwhole]; decide)]
    exact hwhole

theorem since_of_whole {a b : Instant} (ha : a.nanos = 0) (hb : b.nanos = 0) :
    a.since b = (a.seconds - b.seconds) * 1000000000 := by
  have hleap : ∀ t : Instant, t.nanos = 0 → t.isLeap = false := by
    intro t ht
    rw [isLeap, ht]
    rfl
  simp [since, hleap a ha, hleap b hb, ha, hb]

theorem lt_iff_of_whole {t bound : Instant} (hwhole : bound.nanos = 0) :
    t < bound ↔ t.seconds < bound.seconds := by
  rw [lt_iff, hwhole]
  omega

theorem le_iff_of_whole {t bound : Instant} (hwhole : bound.nanos = 0) :
    bound ≤ t ↔ bound.seconds ≤ t.seconds := by
  rw [le_iff, lt_iff_of_whole hwhole, Int.not_lt]

end Instant

namespace Granularity

variable (g : Granularity)

/-- A second is in the partition that starts at a multiple of the granularity if it is within one
length of it. -/
theorem floor_eq_iff {s m : Int} (hm : g.seconds ∣ m) :
    g.floor s = m ↔ m ≤ s ∧ s < m + g.seconds := by
  constructor
  · rintro rfl
    exact ⟨g.floor_le s, g.lt_floor_add s⟩
  · rintro ⟨hle, hlt⟩
    refine Int.le_antisymm (Int.not_lt.mp fun h => ?_) (g.le_floor hm hle)
    have hnext := g.add_seconds_le hm (g.dvd_floor s) h
    have hfloor := g.floor_le s
    omega

theorem interval_idAt {s : Int} (h : InRange s) :
    ∃ stop : Instant, g.interval (idAt s) = .ok (startAt s, stop) ∧
      stop.seconds = s + g.seconds ∧ stop.nanos = 0 := by
  have hle := g.seconds_le
  have hpos := g.seconds_pos
  have hfirst : 0 ≤ s := h.1
  have hlast : s < 1000000000000 := h.2
  have hseconds := seconds_startAt h
  refine ⟨(startAt s).shift g.seconds, ?_, ?_, Instant.nanos_shift (nanos_startAt s)⟩
  · unfold interval
    rw [start_idAt h]
    rfl
  · rw [Instant.seconds_shift (nanos_startAt s) (by omega) (by omega), hseconds]

theorem partitionOf_eq_iff {t u : Instant} (h : InRange (g.floor t.seconds)) :
    g.partitionOf t = g.partitionOf u ↔ g.floor t.seconds = g.floor u.seconds := by
  refine ⟨fun heq => ?_, fun heq => congrArg idAt heq⟩
  have hread : ∃ start, Partition.start (g.partitionOf u) = .ok start :=
    heq ▸ start_idAt_iff.mpr h
  exact idAt_injective h (start_idAt_iff.mp hread) heq

/-- **The laws of the clock.** The id of an instant reads exactly if the start of its partition has
at most twelve digits and no sign. Then the start is what is read, the id has twelve digits, the
partition reaches from there for one length, the instant lies within, the start has the same id,
the instants within are the ones with this id, and ids are ordered as the starts of their
partitions are. -/
theorem clock_laws (t : Instant) :
    ((∃ start, Partition.start (g.partitionOf t) = .ok start) ↔ InRange (g.floor t.seconds)) ∧
    (InRange (g.floor t.seconds) → ∃ start stop : Instant,
      Partition.start (g.partitionOf t) = .ok start ∧
      g.interval (g.partitionOf t) = .ok (start, stop) ∧
      (start.seconds = g.floor t.seconds ∧ start.nanos = 0) ∧
      ((g.partitionOf t).toList.length = 12 ∧ ∀ c ∈ (g.partitionOf t).toList, c.isDigit = true) ∧
      (start ≤ t ∧ t < stop ∧ stop.since start = g.seconds * 1000000000) ∧
      g.partitionOf start = g.partitionOf t ∧
      (∀ u : Instant, g.partitionOf t = g.partitionOf u ↔ start ≤ u ∧ u < stop) ∧
      ∀ u : Instant, InRange (g.floor u.seconds) →
        (g.partitionOf t < g.partitionOf u ↔ g.floor t.seconds < g.floor u.seconds) ∧
        (g.partitionOf t = g.partitionOf u ↔ g.floor t.seconds = g.floor u.seconds)) := by
  refine ⟨start_idAt_iff, fun hrange => ?_⟩
  obtain ⟨stop, hinterval, hstop, hwhole⟩ := g.interval_idAt hrange
  have hread := start_idAt hrange
  have hstart := seconds_startAt hrange
  have hshared (u : Instant) :
      g.partitionOf t = g.partitionOf u ↔ startAt (g.floor t.seconds) ≤ u ∧ u < stop := by
    rw [g.partitionOf_eq_iff hrange, eq_comm, g.floor_eq_iff (g.dvd_floor t.seconds),
      Instant.le_iff_of_whole (nanos_startAt _), Instant.lt_iff_of_whole hwhole, hstart, hstop]
  obtain ⟨hle, hlt⟩ := (hshared t).mp rfl
  refine ⟨startAt (g.floor t.seconds), stop, hread, hinterval, ⟨hstart, rfl⟩,
    (start_eq_ok_iff.mp hread).1, ⟨hle, hlt, ?_⟩, ?_, hshared, fun u hu =>
    ⟨idAt_lt_idAt_iff hrange hu, g.partitionOf_eq_iff hrange⟩⟩
  · rw [Instant.since_of_whole hwhole (nanos_startAt _), hstop, hstart]
    congr 1
    omega
  · show idAt (g.floor (startAt (g.floor t.seconds)).seconds) = idAt (g.floor t.seconds)
    rw [hstart, g.floor_of_dvd (g.dvd_floor t.seconds)]

/-- A leap second belongs to the hour that it ends. -/
example : Granularity.hour.partitionOf
    ⟨1483228799, 1500000000, by decide, by decide, by decide, by decide⟩ = "001483225200" := by
  decide

end Granularity

end WatchHistory
