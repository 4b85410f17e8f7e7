import WatchHistory.Proofs.Event.Tally
import WatchHistory.Proofs.Store.Agree

/-!
# The rows of a stage

All tables share one space of keys, and the keys that a stage reads and writes are made of the texts
of a payload. Still, whatever is in the store and in the payload, a stage takes no row away, and
what it writes are rows of its own table (`Store.Extends`) under keys that are known beforehand:

* `Stage.after_cases_own`: at most one row, under the object's own key (`Intake.ownKey`).
* `Intake.exists_written_addGroups`: at most one tally in each partition, under the key of the
  involved object.
* `runStage_writes_own_rows` puts them together, and tells that a stage that fails writes nothing.
-/

set_option autoImplicit false

namespace WatchHistory

namespace Store

/-- Whether a store comes from another one by writing rows of a table. -/
structure Extends (t : Table) (s s' : Store) : Prop where
  kept : ∀ key, s.get? key ≠ none → s'.get? key ≠ none
  outside : ∀ key, ¬ t.stem.toList <+: key.toList → s'.get? key = s.get? key

namespace Extends

variable {t : Table} {s s' s'' : Store}

theorem refl (t : Table) (s : Store) : Extends t s s := ⟨fun _ h => h, fun _ _ => rfl⟩

theorem trans (h : Extends t s s') (h' : Extends t s' s'') : Extends t s s'' :=
  ⟨fun key hkey => h'.kept key (h.kept key hkey),
    fun key hkey => (h'.outside key hkey).trans (h.outside key hkey)⟩

theorem of_set {k : Key t} {row : t.Row} (h : s.set k row = .ok s') : Extends t s s' := by
  refine ⟨fun key hkey => ?_, fun key hkey => ?_⟩
  · rw [get?_set h]
    split
    · simp
    · exact hkey
  · obtain ⟨⟨k', hk'⟩, -⟩ := set_eq_ok.mp h
    obtain ⟨rest, hrest⟩ := exists_stem_append hk'
    rw [get?_set h, if_neg]
    rintro rfl
    exact hkey ⟨rest, hrest.symm⟩

end Extends

/-- Write tallies of an involved object, one after the other, each in its partition. -/
def setTallies (r : Intake) (written : List (String × EventTally)) (s : Store) :
    Except StoreError Store :=
  written.foldlM (fun s tally => s.set (r.tallyKey tally.1) tally.2) s

theorem extends_setTallies {r : Intake} {written : List (String × EventTally)} {s s' : Store}
    (h : setTallies r written s = .ok s') : Extends .eventCount s s' := by
  induction written generalizing s with
  | nil =>
    cases h
    exact .refl _ _
  | cons tally written ih =>
    rw [setTallies, List.foldlM_cons] at h
    obtain ⟨s₁, hset, h⟩ := bind_eq_ok.mp h
    exact (Extends.of_set hset).trans (ih h)

end Store

namespace Intake

variable {g : Granularity} {r : Intake} {s s' : Store}

theorem exists_partitionOf_of_mem_groups {lastMinute : Int} {d : EventDelta}
    {group : String × List (Int × Int)} (h : group ∈ (groups g lastMinute d).entries) :
    ∃ time, group.1 = g.partitionOf time := by
  obtain ⟨p, buckets⟩ := group
  obtain ⟨hne, rfl⟩ := mem_entries_groupMinutes h
  obtain ⟨bucket, hbucket⟩ := List.exists_mem_of_ne_nil _ hne
  obtain ⟨time, -, hp⟩ :=
    Option.map_eq_some_iff.mp (of_decide_eq_true (List.mem_filter.mp hbucket).2)
  exact ⟨time, hp.symm⟩

theorem exists_written_addGroups {reason : String} {groups : List (String × List (Int × Int))}
    (h : groups.foldlM (fun s group => r.addBuckets reason group.1 group.2 s) s = .ok s') :
    ∃ written, written.map Prod.fst = groups.map Prod.fst ∧
      Store.setTallies r written s = .ok s' := by
  induction groups generalizing s with
  | nil =>
    cases h
    exact ⟨[], rfl, rfl⟩
  | cons group groups ih =>
    rw [List.foldlM_cons] at h
    obtain ⟨s₁, hadd, h⟩ := bind_eq_ok.mp h
    obtain ⟨minutes, -, hset⟩ := addBuckets_eq_ok.mp hadd
    obtain ⟨written, hpartitions, hwritten⟩ := ih h
    refine ⟨(group.1, ⟨some (addedTo minutes reason group.2)⟩) :: written, ?_, ?_⟩
    · rw [List.map_cons, List.map_cons, hpartitions]
    · rw [Store.setTallies, List.foldlM_cons]
      exact bind_eq_ok.mpr ⟨s₁, hset, hwritten⟩

end Intake

namespace Stage

/-- The stage `.eventCount` writes at most one tally in each partition. -/
theorem exists_written_after_eventCount (g : Granularity) (keepMinor : Bool) (r : Intake)
    (s : Store) : ∃ written : List (String × EventTally), (written.map Prod.fst).Nodup ∧
      (∀ p ∈ written.map Prod.fst, ∃ time, p = g.partitionOf time) ∧
      Store.setTallies r written s = .ok (eventCount.after g keepMinor r s) := by
  rcases after_eventCount_cases g keepMinor r s with
    hsame | ⟨reason, d, lastMinute, -, -, hadd⟩
  · exact ⟨[], List.nodup_nil, nofun, congrArg Except.ok hsame.symm⟩
  · obtain ⟨written, hpartitions, hwritten⟩ := Intake.exists_written_addGroups hadd
    refine ⟨written, ?_, fun p hp => ?_, hwritten⟩
    · rw [hpartitions]
      exact List.pairwise_map.mpr (Intake.pairwise_groups lastMinute d)
    · rw [hpartitions] at hp
      obtain ⟨group, hgroup, rfl⟩ := List.mem_map.mp hp
      exact Intake.exists_partitionOf_of_mem_groups hgroup

/-- A stage other than `.eventCount` writes at most the row of the observed object. -/
theorem after_eq_or_set (g : Granularity) (keepMinor : Bool) (r : Intake) (s : Store)
    {stage : Stage} (hstage : stage ≠ .eventCount) :
    stage.after g keepMinor r s = s ∨ ∃ row : stage.table.Row,
      s.set (r.ownKey g stage.table) row = .ok (stage.after g keepMinor r s) := by
  rcases after_cases_own g keepMinor r s hstage with
    hsame | ⟨rfl, hset⟩ | ⟨t, row, rfl, -, -, hset⟩
  · exact .inl hsame
  · exact .inr ⟨_, hset⟩
  · exact .inr ⟨_, hset⟩

theorem extends_after (g : Granularity) (keepMinor : Bool) (r : Intake) (s : Store)
    (stage : Stage) : Store.Extends stage.table s (stage.after g keepMinor r s) := by
  by_cases hstage : stage = .eventCount
  · subst hstage
    obtain ⟨written, -, -, hwritten⟩ := exists_written_after_eventCount g keepMinor r s
    exact Store.extends_setTallies hwritten
  · rcases after_eq_or_set g keepMinor r s hstage with hsame | ⟨row, hset⟩
    · rw [hsame]
      exact .refl _ _
    · exact .of_set hset

end Stage

/-- **A stage writes its own rows only**, whatever is in the store and in the payload. It takes no
row away and changes none outside its table, and if it fails it changes none at all. What it writes
is the row of the object, or tallies of the involved object in different partitions. -/
theorem runStage_writes_own_rows (g : Granularity) (keepMinor : Bool) (r : Intake) (i : Ingestion)
    (stage : Stage) :
    let s' := (Ingestion.runStage g keepMinor r i stage).store
    (∀ key, i.store.get? key ≠ none → s'.get? key ≠ none) ∧
      (∀ e, stage.run g keepMinor r i.store = .error e → s' = i.store) ∧
      (∀ key, ¬ stage.table.stem.toList <+: key.toList → s'.get? key = i.store.get? key) ∧
      (stage ≠ .eventCount →
        s' = i.store ∨ ∃ row, i.store.set (r.ownKey g stage.table) row = .ok s') ∧
      (stage = .eventCount → ∃ written : List (String × EventTally),
        (written.map Prod.fst).Nodup ∧
        (∀ p ∈ written.map Prod.fst, ∃ time, p = g.partitionOf time) ∧
        Store.setTallies r written i.store = .ok s') := by
  dsimp only
  rw [Ingestion.store_runStage]
  obtain ⟨hkept, houtside⟩ := Stage.extends_after g keepMinor r i.store stage
  refine ⟨hkept, fun e hfailed => ?_, houtside, Stage.after_eq_or_set g keepMinor r i.store, ?_⟩
  · unfold Stage.after
    rw [hfailed]
  · rintro rfl
    exact Stage.exists_written_after_eventCount g keepMinor r i.store

end WatchHistory
