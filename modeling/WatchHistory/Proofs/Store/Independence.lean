import WatchHistory.Proofs.Store.Agree

/-!
# Tables do not touch each other

All tables share one space of keys, and the range of a text can reach over several of them: `/watch`
is how a key of observations without any fields is written, and the keys of `watchactivity` are in
its range. Whatever is changed in a table nevertheless has a key under the stem of that table
(`Changed.agree`), and whatever is read of another one has a key under the stem of that one, so no
read of a table tells what was done to another (`Changed.reads_elsewhere`).
-/

set_option autoImplicit false

namespace WatchHistory.Store

/-- What can come of a store when one table is changed: a row is written or deleted, or a partition
is dropped, under any key and any text for an id. -/
inductive Changed (u : Table) (s : Store) : Store → Prop
  | set {k : Key u} {row : u.Row} {s' : Store} (h : s.set k row = .ok s') : Changed u s s'
  | delete (k : Key u) : Changed u s (s.delete k).1
  | dropPartition (partition : String) : Changed u s (s.dropPartition u partition).1

namespace Changed

variable {t u : Table} {s s' : Store}

theorem agree (h : Changed u s s') (hne : u ≠ t) : Agree t s s' := by
  cases h with
  | set h => exact .of_set h hne
  | delete k =>
    intro key rest hkey
    have hother : key ≠ k.render := by
      rintro rfl
      exact Key.not_stem_isPrefix_render hne.symm k ⟨rest, hkey.symm⟩
    show s.get? key = (s.erase k.render).get? key
    rw [get?_erase, if_neg hother]
  | dropPartition partition =>
    intro key rest hkey
    rw [Store.dropPartition, get?_dropUnder, if_neg]
    intro hrange
    obtain ⟨more, hmore, -⟩ := Text.mem_range_iff.mp hrange
    have hstem : key.toList = u.stem.toList ++ (partition.toList ++ '/' :: more) := by
      simpa [Table.partitionStem, Table.stem] using hmore
    exact hne (Key.table_eq_of_stem_append (hstem.symm.trans hkey))

/-- **Tables do not touch each other.** After a change of one table every read of another one gives
what it gave before, a value or an error: of single rows, of the first and the last key, of the
partitions, of the last key before any other one and of all rows in any span of time, whatever the
store holds and whatever keys are asked for. -/
theorem reads_elsewhere (h : Changed u s s') (hne : u ≠ t) :
    (∀ k : Key t, s'.get k = s.get k ∧ s'.getOrInitial k = s.getOrInitial k) ∧
    (s'.minKey? t = s.minKey? t ∧ s'.maxKey? t = s.maxKey? t) ∧
    s'.tableBounds t = s.tableBounds t ∧
    ∀ g : Granularity, s'.tablePartitions g t = s.tablePartitions g t ∧
      (∀ k comparator : Key t, s'.previousKey g k comparator = s.previousKey g k comparator) ∧
      ∀ (stem : Option (Key t)) (key : String → Bool) (row : t.Row → Bool) (start stop : Instant),
        s'.scan g stem key row start stop = s.scan g stem key row start stop := by
  have hagree : Agree t s' s := (h.agree hne).symm
  refine ⟨fun k => ⟨hagree.get_eq k, ?_⟩, ⟨hagree.minKey?_eq, hagree.maxKey?_eq⟩,
    hagree.tableBounds_eq, fun g => ⟨hagree.tablePartitions_eq g, hagree.previousKey_eq g,
    hagree.scan_eq g⟩⟩
  unfold getOrInitial
  rw [hagree.find?_eq]

/-- The key of observations without any fields. -/
def anyObservation : Key .watch := .comparator .watch "" "" "" none

/-- The key of the activity of a pod in the first hour. -/
def podActivity : Key .activity := .within .hour .activity .epoch "Pod" "ns" "web" "u"

/-- A row about activity is in the range of an observation's key, and its partition is dropped; the
search for the observation does not tell. -/
theorem reads_elsewhere_sharedFront :
    ∃ s, empty.set podActivity ⟨[], [0]⟩ = .ok s ∧
      anyObservation.render = "/watch" ∧ s.count "/watch" = 1 ∧
      (s.dropPartition .activity "000000000000").2 = 1 ∧
      Changed .activity s (s.dropPartition .activity "000000000000").1 ∧
      Table.activity ≠ Table.watch ∧
      (s.dropPartition .activity "000000000000").1.previousKey .hour anyObservation
          anyObservation =
        s.previousKey .hour anyObservation anyObservation := by
  have hparse : Key.parse .activity podActivity.render = .ok podActivity :=
    eq_ok_of_toOption (by decide +kernel)
  refine ⟨_, set_of_parse hparse empty ⟨[], [0]⟩, by decide +kernel, by decide +kernel,
    by decide +kernel, .dropPartition _, by decide, ?_⟩
  exact (((dropPartition _).reads_elsewhere (by decide)).2.2.2 .hour).2.1 _ _

end Changed

end WatchHistory.Store
