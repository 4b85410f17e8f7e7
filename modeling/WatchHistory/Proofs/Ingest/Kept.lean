import WatchHistory.Proofs.Ingest.Isolation

/-!
# What is kept of observations

In a store that was filled by ingestion, every row of the table of observations is that of an
observation of an object, under the key of the object and the time (`Store.Records`,
`records_ingested`). Such a row is read back as the observation (`Store.Keeps.get_eq`), whether or
not its time is: a leap second has the nanoseconds of the second after it.

* `Ingestion.keeps_process_of_isNew`, `Ingestion.keeps_process`: what is ingested is kept, if it
  tells something new or is not of a node. What is kept stays (`Store.Keeps.process`).
* `Intake.previous?_of_greatest`: the observation whose time has the greatest text in a partition is
  found by the next one of the object in that partition. This needs neither ids on the grid nor
  times of nineteen digits.
-/

set_option autoImplicit false

namespace WatchHistory

open WatchHistory.Partition Store

/-! ## Keys -/

namespace Key

variable {g : Granularity} {kind ns name : String} {t : Instant} {k : Key .watch}

theorem searchable_of_parse (h : parse .watch (observation g kind ns name t).render = .ok k)
    (hname : name ≠ "") : Searchable kind ns name := by
  have hlast : lastText .watch (observation g kind ns name t).last ≠ [] := instantText_ne_nil t
  obtain ⟨hslash, -⟩ := fields_of_parse_render hlast h
  simp only [fields, observation, within, List.mem_cons, List.not_mem_nil, or_false,
    forall_eq_or_imp, forall_eq] at hslash
  obtain ⟨-, hkind, hns, hslashed, -⟩ := hslash
  exact ⟨hkind, hns, hslashed, fun hnil => hname (String.toList_injective hnil)⟩

theorem Spells.render_eq {text : String} (h : Spells text k) : k.render = text := by
  have hlast : lastText .watch k.last ≠ [] := by
    intro hnil
    have hread := h.readLast?
    rw [hnil] at hread
    cases hread
  exact String.toList_injective (by
    rw [toList_render, dropEmptyEnd_fields hlast, h.toList_eq])

end Key

/-! ## Rows that were kept -/

/-- The stage `.watch` writes no row, or the one of the observation. -/
theorem Stage.after_watch_cases (g : Granularity) (keepMinor : Bool) (r : Intake) (s : Store) :
    Stage.watch.after g keepMinor r s = s ∨
      s.set (Key.observation g r.object.kind r.object.ns r.object.name r.observation.time)
        r.observation = .ok (Stage.watch.after g keepMinor r s) := by
  rcases after_cases g keepMinor r s (show Stage.watch ≠ .eventCount by decide) with
    hsame | ⟨-, hset⟩ | ⟨t, last, row, htable, hwatch, -⟩
  · exact .inl hsame
  · exact .inr hset
  · exact absurd htable hwatch

namespace Store

variable {s s' : Store} {g : Granularity} {x : ObjectName} {o : Observation}
  {P : Observation → Prop}

/-- Whether a store holds the row of an observation of an object. -/
structure Keeps (s : Store) (g : Granularity) (x : ObjectName) (o : Observation) : Prop where
  object_eq : o.object? = some x
  row : s.get? (Key.observation g x.kind x.ns x.name o.time).render = some (Table.watch.write o)

theorem Keeps.of_agree (h : s.Keeps g x o) (hagree : Agree .watch s s') : s'.Keeps g x o := by
  obtain ⟨rest, hrest⟩ := exists_stem_append_retarget
    (ranked_idAt (g.floor o.time.seconds)).1 (Key.observation g x.kind x.ns x.name o.time)
  exact ⟨h.object_eq, (hagree _ rest hrest).symm.trans h.row⟩

theorem Keeps.get_eq (h : s.Keeps g x o) {k : Key .watch}
    (hk : Key.parse .watch (Key.observation g x.kind x.ns x.name o.time).render = .ok k) :
    s.get k = .ok o := by
  have hrender := (Key.spells_observation hk).render_eq
  refine get_eq_ok.mpr ⟨⟨k, hrender ▸ hk⟩, Table.watch.write o, ?_, Table.read?_write .watch o⟩
  rw [hrender]
  exact h.row

/-- Whether every row of the table of observations was kept of an observation with a property. -/
def Records (s : Store) (g : Granularity) (P : Observation → Prop) : Prop :=
  ∀ key row k, s.get? key = some row → Key.parse .watch key = .ok k → ∃ x o, P o ∧ s.Keeps g x o ∧
    key = (Key.observation g x.kind x.ns x.name o.time).render

namespace Records

theorem empty (g : Granularity) (P : Observation → Prop) : Records .empty g P := by
  intro key row k hrow
  cases hrow

theorem mono (h : s.Records g P) {Q : Observation → Prop} (hPQ : ∀ o, P o → Q o) :
    s.Records g Q := by
  intro key row k hrow hk
  obtain ⟨x, o, hP, hkept⟩ := h key row k hrow hk
  exact ⟨x, o, hPQ o hP, hkept⟩

theorem of_agree (h : s.Records g P) (hagree : Agree .watch s s') : s'.Records g P := by
  intro key row k hrow hk
  obtain ⟨rest, hrest⟩ := exists_stem_append hk
  obtain ⟨x, o, hP, hkept, rfl⟩ := h key row k ((hagree key rest hrest).trans hrow) hk
  exact ⟨x, o, hP, hkept.of_agree hagree, rfl⟩

theorem set (h : s.Records g P) (hobject : o.object? = some x) (hP : P o)
    (hset : s.set (Key.observation g x.kind x.ns x.name o.time) o = .ok s') : s'.Records g P := by
  intro key row k hrow hk
  by_cases hkey : key = (Key.observation g x.kind x.ns x.name o.time).render
  · exact ⟨x, o, hP, ⟨hobject, by rw [get?_set hset, if_pos rfl]⟩, hkey⟩
  · rw [get?_set hset, if_neg hkey] at hrow
    obtain ⟨x', o', hP', hkept, rfl⟩ := h key row k hrow hk
    refine ⟨x', o', hP', ⟨hkept.object_eq, ?_⟩, rfl⟩
    rw [get?_set hset, if_neg hkey]
    exact hkept.row

theorem after (h : s.Records g P) {r : Intake} (hread : Intake.ofObservation o = .ok r) (hP : P o)
    (keepMinor : Bool) (stage : Stage) : (stage.after g keepMinor r s).Records g P := by
  obtain rfl := Intake.observation_ofObservation hread
  by_cases hstage : stage = .watch
  · subst hstage
    rcases Stage.after_watch_cases g keepMinor r s with hsame | hset
    · rw [hsame]
      exact h
    · exact h.set (Intake.object?_of_ofObservation hread) hP hset
  · exact h.of_agree (Stage.agree_after fun htable => hstage (Stage.table_injective htable))

theorem process (keepMinor : Bool) {i : Ingestion} (h : i.store.Records g P) (hP : P o) :
    (Ingestion.process g keepMinor i o).store.Records g P :=
  Ingestion.process_induction_of_read (P := fun s => s.Records g P)
    (fun _ stage _ hread hs => hs.after hread hP keepMinor stage) h

/-- A row under a key of an object was kept of an observation of that object, in the partition of
the key. -/
theorem of_observes (h : s.Records g P) {key row : String} {k : Key .watch} {kind ns name : String}
    (hrow : s.get? key = some row) (hk : Observes kind ns name key k) :
    ∃ o, P o ∧ s.Keeps g ⟨kind, ns, name⟩ o ∧
      key = (Key.observation g kind ns name o.time).render ∧
      k.partition = g.partitionOf o.time := by
  obtain ⟨x, o, hP, hkept, rfl⟩ := h key row k hrow hk.parse
  obtain ⟨-, hkind, hns, hname⟩ := Key.of_parse_observation hk.parse
  obtain rfl : x = ⟨kind, ns, name⟩ := by
    cases x
    rw [ObjectName.mk.injEq]
    exact ⟨hkind.symm.trans hk.kind_eq, hns.symm.trans hk.ns_eq, hname.symm.trans hk.name_eq⟩
  exact ⟨o, hP, hkept, rfl, Key.partition_of_parse_within hk.parse⟩

end Records

/-- Every row of the table of observations was kept of one of the ingested observations. -/
theorem records_ingested (g : Granularity) (keepMinor : Bool) (os : List Observation) :
    (ingested g keepMinor os).Records g (· ∈ os) :=
  Ingestion.processAll_induction (P := fun s => s.Records g (· ∈ os))
    (fun _ ho _ hi => hi.process keepMinor ho) (.empty g _)

end Store

/-! ## What is ingested is kept -/

section

variable {g : Granularity} {keepMinor : Bool} {i : Ingestion} {x : ObjectName} {o p : Observation}

theorem Ingestion.exists_stagesFor_eq (kind : String) : ∃ earlier later,
    stagesFor kind = earlier ++ .watch :: later ∧ .watch ∉ earlier ∧ .watch ∉ later := by
  by_cases hkind : kind = Payload.eventKind
  · rw [hkind, stagesFor_event]
    exact ⟨[.eventCount], [], rfl, by decide, nofun⟩
  · rw [stagesFor_of_ne hkind]
    refine ⟨[.activity], _, rfl, by decide, ?_⟩
    split <;> decide

theorem Intake.exists_of_object? (hkind : o.kind ≠ Payload.eventKind) (h : o.object? = some x) :
    ∃ r, Intake.ofObservation o = .ok r ∧ r.observation = o ∧ r.object = x := by
  obtain ⟨m, hm, rfl⟩ := Option.map_eq_some_iff.mp h
  refine ⟨⟨o, m, .initial⟩, bind_eq_ok.mpr ⟨m, eq_ok_of_toOption hm, ?_⟩, rfl, rfl⟩
  rw [if_neg hkind]
  rfl

/-- An observation that `isNew` is kept if its key can be read. -/
theorem Ingestion.keeps_process_of_isNew {r : Intake} (hread : Intake.ofObservation o = .ok r)
    (hnew : r.isNew g keepMinor i.store = .ok true) {k : Key .watch}
    (hk : Key.parse .watch (Key.observation g r.object.kind r.object.ns r.object.name
      o.time).render = .ok k) :
    (process g keepMinor i o).store.Keeps g r.object o := by
  have hobject := Intake.object?_of_ofObservation hread
  obtain rfl := Intake.observation_ofObservation hread
  obtain ⟨earlier, later, hstages, hearlier, hlater⟩ := exists_stagesFor_eq r.observation.kind
  have hagree : ∀ {stages : List Stage}, .watch ∉ stages → ∀ stage ∈ stages,
      stage.table ≠ .watch := fun hnot stage hstage htable =>
    hnot ((Stage.table_injective htable : stage = .watch) ▸ hstage)
  rw [store_process, hread]
  dsimp only
  rw [hstages, List.foldl_append, List.foldl_cons]
  have hbefore : Agree .watch i.store (earlier.foldl (Stage.after g keepMinor r) i.store) :=
    Stage.agree_foldl_after (hagree hearlier)
  rw [Intake.isNew_eq hbefore] at hnew
  generalize earlier.foldl (Stage.after g keepMinor r) i.store = s at hnew
  have hset := set_of_parse hk s r.observation
  have hafter : Stage.watch.after g keepMinor r s = s.insert (Key.observation g r.object.kind
      r.object.ns r.object.name r.observation.time).render (Table.watch.write r.observation) := by
    unfold Stage.after
    rw [Stage.run_watch_eq_ok.mpr ⟨true, Intake.keep_eq_ok.mpr ⟨hnew, hset⟩, rfl⟩]
  have hkept : (Stage.watch.after g keepMinor r s).Keeps g r.object r.observation := by
    refine ⟨hobject, ?_⟩
    rw [hafter, get?_insert, if_pos rfl]
  exact hkept.of_agree (Stage.agree_foldl_after (hagree hlater))

theorem Ingestion.keeps_process {r : Intake} (hread : Intake.ofObservation o = .ok r)
    (hnode : o.kind ≠ Payload.nodeKind) {k : Key .watch} (hk : Key.parse .watch (Key.observation g
      r.object.kind r.object.ns r.object.name o.time).render = .ok k) :
    (process g keepMinor i o).store.Keeps g r.object o :=
  keeps_process_of_isNew hread
    (Intake.isNew_of_ne ((Intake.observation_ofObservation hread).symm ▸ hnode)) hk

/-- What was kept stays, unless an observation with the same key is ingested. -/
theorem Store.Keeps.process (h : i.store.Keeps g x p) (keepMinor : Bool)
    (hne : ∀ y, o.object? = some y → (Key.observation g y.kind y.ns y.name o.time).render ≠
      (Key.observation g x.kind x.ns x.name p.time).render) :
    (Ingestion.process g keepMinor i o).store.Keeps g x p := by
  refine Ingestion.process_induction_of_read (P := fun s => s.Keeps g x p)
    (fun r stage s hread hs => ?_) h
  have hobject := Intake.object?_of_ofObservation hread
  obtain rfl := Intake.observation_ofObservation hread
  by_cases hstage : stage = .watch
  · subst hstage
    rcases Stage.after_watch_cases g keepMinor r s with hsame | hset
    · rw [hsame]
      exact hs
    · refine ⟨hs.object_eq, ?_⟩
      rw [get?_set hset, if_neg fun hkey => hne _ hobject hkey.symm]
      exact hs.row
  · exact hs.of_agree (Stage.agree_after fun htable => hstage (Stage.table_injective htable))

end

namespace Intake

variable {g : Granularity} {r : Intake} {s : Store} {o : Observation} {P : Observation → Prop}

/-- **The observation with the greatest text** of those in the partition of the next one is
found. -/
theorem previous?_of_greatest {k : Key .watch} (hnamed : r.metadata.name ≠ "")
    (hrecords : s.Records g P) (hkept : s.Keeps g r.object o)
    (hk : Key.parse .watch (Key.observation g r.observation.kind r.metadata.ns r.metadata.name
      o.time).render = .ok k)
    (hpartition : g.partitionOf o.time = g.partitionOf r.observation.time)
    (hgreatest : ∀ p, P p → s.Keeps g r.object p → g.partitionOf p.time = g.partitionOf o.time →
      ¬ Key.instantText o.time < Key.instantText p.time) :
    r.previous? g s = .ok (some o) := by
  have hsearch := Key.searchable_of_parse hk hnamed
  have hobserves : Observes r.observation.kind r.metadata.ns r.metadata.name
      (Key.observation g r.observation.kind r.metadata.ns r.metadata.name o.time).render k := by
    obtain ⟨-, hkind, hns, hname⟩ := Key.of_parse_observation hk
    exact ⟨hk, hkind, hns, hname⟩
  have hid : k.partition = g.partitionOf r.observation.time :=
    (Key.partition_of_parse_within hk).trans hpartition
  have hfound := lastMatch?_eq_some hsearch
    (ranked_idAt (g.floor r.observation.time.seconds)).1
    (slash_notMem_idAt (g.floor r.observation.time.seconds)) hkept.row hobserves hid
    fun key row k' hrow hk' hid' => by
      obtain ⟨p, hP, hkept', rfl, hp⟩ := hrecords.of_observes hrow hk'
      have hsame : g.partitionOf p.time = g.partitionOf o.time :=
        (hp.symm.trans hid').trans hpartition.symm
      show ¬ (Key.observation g r.observation.kind r.metadata.ns r.metadata.name o.time).render < _
      rw [Key.observation_lt_iff hsearch hsame.symm]
      exact hgreatest p hP hkept' hsame
  unfold previous?
  dsimp only
  rw [previousKey_of_lastMatch? hsearch hfound]
  dsimp only
  rw [hkept.get_eq hk]
  rfl

end Intake

end WatchHistory
