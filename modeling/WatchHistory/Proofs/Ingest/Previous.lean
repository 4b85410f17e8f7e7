import WatchHistory.Proofs.Ingest.Frames
import WatchHistory.Proofs.Key.Observation
import WatchHistory.Proofs.Store.Filled

/-!
# The observation before

Stores stay filled while observations of the years from 1970 on are ingested (`Filled.after`), so
their partitions can be listed, and the newest observation of an object in them is found:
`previous?_eq_some`, and `previous?_eq_none` if there is none. An observation that is not of a node
does not depend on it to be kept (`Stage.set_after_watch`).
-/

set_option autoImplicit false

namespace WatchHistory

open WatchHistory.Partition Store

/-! ## Filled stores -/

namespace Store.Filled

variable {g : Granularity} {admits : String → Prop} {s : Store}

theorem exists_lists (h : s.Filled g admits) : ∃ ids, s.Lists g ids :=
  Store.exists_lists h.keyed fun _ hp => h.grid hp

theorem after_of_ne (h : s.Filled g admits) {keepMinor : Bool} {r : Intake} {stage : Stage}
    (hstage : stage ≠ .eventCount) (hadmitted : admits r.observation.kind)
    (htime : 0 ≤ r.observation.time.seconds ∧ r.observation.time.seconds < 253402300800) :
    (stage.after g keepMinor r s).Filled g admits := by
  rcases Stage.after_cases g keepMinor r s hstage with
    hsame | ⟨-, hset⟩ | ⟨t, last, row, -, hwatch, -, hset⟩
  · rw [hsame]
    exact h
  · have htells : Table.watch.Tells r.observation.time (some r.observation.time) := rfl
    exact h.set htime htells hadmitted hset
  · have htells : t.Tells r.observation.time last := by
      cases t with
      | watch => exact absurd rfl hwatch
      | summary | eventCount | activity | relation => trivial
    exact h.set htime htells hadmitted hset

/-- What a stage writes of an observation of any other kind than events is filed under the time of
the observation. -/
theorem after (h : s.Filled g admits) {keepMinor : Bool} {r : Intake} (stage : Stage)
    (hkind : r.observation.kind ≠ Payload.eventKind) (hadmitted : admits r.observation.kind)
    (htime : 0 ≤ r.observation.time.seconds ∧ r.observation.time.seconds < 253402300800) :
    (stage.after g keepMinor r s).Filled g admits := by
  by_cases hstage : stage = .eventCount
  · rw [hstage, Stage.after_eventCount_of_ne hkind]
    exact h
  · exact h.after_of_ne hstage hadmitted htime

end Store.Filled

/-! ## Keeping an observation -/

theorem Stage.set_after_watch {g : Granularity} {r : Intake} (keepMinor : Bool) (s : Store)
    (hsearch : Searchable r.observation.kind r.metadata.ns r.metadata.name)
    (htimely : r.observation.time.Timely) (hnode : r.observation.kind ≠ Payload.nodeKind) :
    s.set (Key.observation g r.observation.kind r.metadata.ns r.metadata.name r.observation.time)
      r.observation = .ok (Stage.watch.after g keepMinor r s) := by
  have hset := set_of_parse (Key.parse_observation (g := g) hsearch htimely) s r.observation
  unfold Stage.after
  rw [run_watch_eq_ok.mpr ⟨true, Intake.keep_eq_ok.mpr ⟨Intake.isNew_of_ne hnode, hset⟩, rfl⟩]
  exact hset

/-! ## The newest observation -/

theorem not_partitionOf_lt {g : Granularity} {t u : Instant} (ht : t.Timely) (hu : u.Timely)
    (hle : t ≤ u) : ¬ g.partitionOf u < g.partitionOf t := by
  have hfloor := g.floor_mono (Instant.seconds_le_of_le hle)
  rw [Granularity.partitionOf, Granularity.partitionOf,
    idAt_lt_idAt_iff (hu.inRange g).1 (ht.inRange g).1]
  omega

namespace Intake

variable {g : Granularity} {r : Intake} {s : Store} {ids : List String}

theorem previous?_eq_none
    (hsearch : Searchable r.observation.kind r.metadata.ns r.metadata.name)
    (hids : s.Lists g ids)
    (hnone : ∀ key row k, s.get? key = some row →
      Observes r.observation.kind r.metadata.ns r.metadata.name key k →
        g.partitionOf r.observation.time < k.partition) :
    r.previous? g s = .ok none := by
  unfold previous?
  dsimp only
  rw [previousKey_eq_error hsearch hids hnone]
  rfl

/-- `previous?` finds the latest observation up to the time of the next one, if all are `Timely`. -/
theorem previous?_eq_some
    (hsearch : Searchable r.observation.kind r.metadata.ns r.metadata.name)
    (hids : s.Lists g ids) {o : Observation} (ho : o.time.Timely)
    (htimely : r.observation.time.Timely) (hle : o.time ≤ r.observation.time)
    (hstored : s.get? (Key.observation g r.observation.kind r.metadata.ns r.metadata.name
      o.time).render = some (Table.watch.write o))
    (hlatest : ∀ key row k, s.get? key = some row →
      Observes r.observation.kind r.metadata.ns r.metadata.name key k →
        g.partitionOf r.observation.time < k.partition ∨
          ∃ u : Instant, u.Timely ∧ ¬ o.time < u ∧ key = (Key.observation g r.observation.kind
            r.metadata.ns r.metadata.name u).render) :
    r.previous? g s = .ok (some o) := by
  have hk := Key.observes_observation (g := g) hsearch ho
  unfold previous?
  dsimp only
  rw [previousKey_eq_of_greatest hsearch hids hstored hk (not_partitionOf_lt ho htimely hle)
    fun key row k hrow hk' hbefore => ?_]
  · have hread : Table.watch.read? (Table.watch.write o) = some o := Table.read?_write .watch o
    dsimp only
    rw [get_eq_ok.mpr ⟨⟨_, hk.parse⟩, _, hstored, hread⟩]
    rfl
  · rcases hlatest key row k hrow hk' with hafter | ⟨u, hu, hnot, rfl⟩
    · exact absurd hafter hbefore
    · have hparse := hk'.parse
      rw [Key.parse_observation hsearch hu] at hparse
      cases hparse
      have holder := not_partitionOf_lt (g := g) hu ho hnot
      by_cases hsame : g.partitionOf u = g.partitionOf o.time
      · refine .inr ⟨hsame, ?_⟩
        rw [Key.observation_lt_observation_iff hsearch ho hu hsame.symm]
        exact hnot
      · exact .inl (Decidable.byContradiction fun hnewer =>
          hsame (StrictOrder.connex hnewer holder))

end Intake

end WatchHistory
