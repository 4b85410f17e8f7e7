import WatchHistory.Proofs.Ingest.Maintainable
import WatchHistory.Proofs.Ingest.OwnRows

/-!
# The observations behind a row

A stage that reads the row of an object and writes it again (`Stage.Upserts`) leaves under each key
what the observations with this key have made of it, one after the other, whatever else runs in
between.

* `Ingestion.writers` is these observations: those for which the stage succeeded. Which ones they
  are does not depend on the rows in between (`Stage.writers_flatMap`): the stage fails only for an
  observation that it does not admit, or if the key is not complete.
* `Stage.row_ingested`: the row is the fold of its replacements over them.
-/

set_option autoImplicit false

namespace WatchHistory

/-! ## Rows under a key -/

theorem Store.Extends.get?_render {t u : Table} {s s' : Store} (h : Extends u s s') (hne : u ≠ t)
    (k : Key t) : s'.get? k.render = s.get? k.render :=
  h.outside _ (Key.not_stem_isPrefix_render hne k)

theorem Store.eq_of_find? {t : Table} {s : Store} {k : Key t} {found before : Option t.Row}
    (hfound : s.find? k = .ok found) (h : s.get? k.render = before.map t.write) :
    found = before := by
  rcases (find?_eq_ok.mp hfound).2 with ⟨hnone, rfl⟩ | ⟨text, row, htext, hread, rfl⟩
  · exact (Option.map_eq_none_iff.mp (h.symm.trans hnone)).symm
  · obtain ⟨row', hrow', rfl⟩ := Option.map_eq_some_iff.mp (h.symm.trans htext)
    rw [hrow', Table.eq_of_read?_write hread]

theorem Table.bind_read?_of_eq {t : Table} (h : ∀ row, t.representable row = true)
    {text : Option String} {row : Option t.Row} (htext : text = row.map t.write) :
    text.bind t.read? = row := by
  subst htext
  cases row with
  | none => rfl
  | some row => exact (read?_write t row).trans (if_pos (h row))

/-! ## Stages of a run -/

namespace Ingestion

/-- What is read of the observations that can be read. -/
def intakes (os : List Observation) : List Intake :=
  os.filterMap fun o => (Intake.ofObservation o).toOption

/-- The stages that run for what is read of an observation. -/
def runsOf (r : Intake) : List (Intake × Stage) :=
  (stagesFor r.observation.kind).map fun stage => (r, stage)

/-- The stages that run for observations, one after the other. -/
def stageRuns (os : List Observation) : List (Intake × Stage) := (intakes os).flatMap runsOf

theorem appliesTo_of_mem_runsOf {r : Intake} {run : Intake × Stage} (h : run ∈ runsOf r) :
    run.2.appliesTo run.1.observation.kind = true := by
  obtain ⟨stage, hstage, rfl⟩ := List.mem_map.mp h
  exact (List.mem_filter.mp hstage).2

theorem intakes_cons (o : Observation) (os : List Observation) :
    intakes (o :: os) = match Intake.ofObservation o with
      | .ok r => r :: intakes os
      | .error _ => intakes os := by
  rw [intakes, List.filterMap_cons]
  cases Intake.ofObservation o <;> rfl

theorem ofPayload_of_mem_intakes {os : List Observation} {r : Intake} (h : r ∈ intakes os) :
    Metadata.ofPayload r.observation.payload = .ok r.metadata := by
  obtain ⟨o, -, hread⟩ := List.mem_filterMap.mp h
  have hread := eq_ok_of_toOption hread
  obtain rfl := Intake.observation_ofObservation hread
  exact Intake.ofPayload_of_ofObservation hread

theorem sublist_intakes (os : List Observation) :
    ((intakes os).map (·.observation)).Sublist os := by
  induction os with
  | nil => exact List.nil_sublist _
  | cons o os ih =>
    rw [intakes_cons]
    cases hread : Intake.ofObservation o with
    | error e => exact ih.cons o
    | ok r =>
      obtain rfl := Intake.observation_ofObservation hread
      exact ih.cons_cons r.observation

/-- The observations that a stage has written into its row under a key: those that have this key and
for which the stage has succeeded. -/
def writers (g : Granularity) (keepMinor : Bool) (stage : Stage) (key : String) :
    Store → List (Intake × Stage) → List Intake
  | _, [] => []
  | s, (r, next) :: runs =>
    let later := writers g keepMinor stage key (next.after g keepMinor r s) runs
    if next = stage ∧ (r.ownKey g stage.table).render = key ∧ (next.run g keepMinor r s).isOk then
      r :: later
    else later

theorem store_processAll (g : Granularity) (keepMinor : Bool) (i : Ingestion)
    (os : List Observation) : (processAll g keepMinor i os).store =
      (stageRuns os).foldl (fun s run => run.2.after g keepMinor run.1 s) i.store := by
  induction os generalizing i with
  | nil => rfl
  | cons o os ih =>
    have hprocess : processAll g keepMinor i (o :: os) =
        processAll g keepMinor (process g keepMinor i o) os := rfl
    rw [hprocess, ih, store_process, stageRuns, stageRuns, intakes_cons]
    cases hread : Intake.ofObservation o with
    | error e => rfl
    | ok r =>
      obtain rfl := Intake.observation_ofObservation hread
      rw [List.flatMap_cons, List.foldl_append, runsOf, List.foldl_map]

theorem writers_append (g : Granularity) (keepMinor : Bool) (stage : Stage) (key : String)
    (s : Store) (runs runs' : List (Intake × Stage)) :
    writers g keepMinor stage key s (runs ++ runs') = writers g keepMinor stage key s runs ++
      writers g keepMinor stage key
        (runs.foldl (fun s run => run.2.after g keepMinor run.1 s) s) runs' := by
  induction runs generalizing s with
  | nil => rfl
  | cons run runs ih =>
    obtain ⟨r, next⟩ := run
    rw [List.cons_append, writers, writers, ih, List.foldl_cons]
    split <;> rfl

end Ingestion

/-! ## Rows that are replaced -/

namespace Stage

variable {stage next : Stage} {g : Granularity} {r : Intake} {s : Store}

/-- Whether a stage replaces the row of the object by what an observation makes of it, for all
observations that it `admits`, and fails for the others. -/
structure Upserts (stage : Stage) (g : Granularity) (admits : Intake → Bool)
    (change : Intake → Option stage.table.Row → stage.table.Row) : Prop where
  run_eq_ok_iff : ∀ (keepMinor : Bool) (r : Intake) (s s' : Store),
    stage.appliesTo r.observation.kind = true →
      ((∃ result, stage.run g keepMinor r s = .ok (s', result)) ↔ admits r = true ∧
        ∃ before, s.find? (r.ownKey g stage.table) = .ok before ∧
          s.set (r.ownKey g stage.table) (change r before) = .ok s')
  representable : ∀ row, stage.table.representable row = true

variable {admits : Intake → Bool} {change : Intake → Option stage.table.Row → stage.table.Row}

/-- A stage changes the row under a key only if it is the stage of the table, succeeds and has this
key. -/
theorem get?_after (h : stage.Upserts g admits change) (keepMinor : Bool) {k : Key stage.table}
    {before : Option stage.table.Row} (hbefore : s.get? k.render = before.map stage.table.write)
    (hnext : next.appliesTo r.observation.kind = true) :
    (next.after g keepMinor r s).get? k.render =
      (if next = stage ∧ (r.ownKey g stage.table).render = k.render ∧
          (next.run g keepMinor r s).isOk then some (change r before) else before).map
        stage.table.write := by
  by_cases hsame : next = stage
  · subst hsame
    rcases after_spec next g keepMinor r s with ⟨result, hrun⟩ | ⟨⟨e, hfailed⟩, hafter⟩
    · obtain ⟨-, found, hfound, hset⟩ := (h.run_eq_ok_iff keepMinor r s _ hnext).mp ⟨result, hrun⟩
      rw [Store.get?_set hset]
      by_cases hkey : (r.ownKey g next.table).render = k.render
      · rw [← hkey] at hbefore
        rw [if_pos hkey.symm, if_pos ⟨rfl, hkey, by rw [hrun]; rfl⟩,
          Store.eq_of_find? hfound hbefore]
        rfl
      · rw [if_neg fun h => hkey h.symm, if_neg fun h => hkey h.2.1, hbefore]
    · rw [hafter, if_neg (by simp [hfailed, Except.isOk, Except.toBool]), hbefore]
  · -- another stage has a table of its own, whose keys differ from all keys of this one
    have hother : next.table ≠ stage.table := fun htable => hsame (table_injective htable)
    rw [(extends_after g keepMinor r s next).get?_render hother, if_neg fun h => hsame h.1, hbefore]

/-- A series of stages leaves under a key the fold of its replacements over the `writers`. -/
theorem get?_foldl_after (h : stage.Upserts g admits change) (keepMinor : Bool)
    {k : Key stage.table} {runs : List (Intake × Stage)}
    (hruns : ∀ run ∈ runs, run.2.appliesTo run.1.observation.kind = true)
    {before : Option stage.table.Row} (hbefore : s.get? k.render = before.map stage.table.write) :
    (runs.foldl (fun s run => run.2.after g keepMinor run.1 s) s).get? k.render =
      ((Ingestion.writers g keepMinor stage k.render s runs).foldl
        (fun before r => some (change r before)) before).map stage.table.write := by
  induction runs generalizing s before with
  | nil => exact hbefore
  | cons run runs ih =>
    obtain ⟨r, next⟩ := run
    have hafter := get?_after h keepMinor hbefore (hruns _ List.mem_cons_self)
    rw [List.foldl_cons, ih (fun run hrun => hruns run (List.mem_cons_of_mem _ hrun)) hafter,
      Ingestion.writers]
    by_cases hwrites : next = stage ∧ (r.ownKey g stage.table).render = k.render ∧
        (next.run g keepMinor r s).isOk
    · rw [if_pos hwrites, if_pos hwrites, List.foldl_cons]
    · rw [if_neg hwrites, if_neg hwrites]

theorem get?_ingested (h : stage.Upserts g admits change) (keepMinor : Bool) (os : List Observation)
    (k : Key stage.table) : (ingested g keepMinor os).get? k.render =
      ((Ingestion.writers g keepMinor stage k.render .empty (Ingestion.stageRuns os)).foldl
        (fun before r => some (change r before)) none).map stage.table.write := by
  rw [ingested, Ingestion.store_processAll]
  refine get?_foldl_after h keepMinor (fun run hrun => ?_) rfl
  obtain ⟨r, -, hrun⟩ := List.mem_flatMap.mp hrun
  exact Ingestion.appliesTo_of_mem_runsOf hrun

/-! ## The observations that are written -/

theorem isOk_run_iff (h : stage.Upserts g admits change) (keepMinor : Bool) {k : Key stage.table}
    {before : Option stage.table.Row} (hbefore : s.get? k.render = before.map stage.table.write)
    (happlies : stage.appliesTo r.observation.kind = true)
    (hkey : (r.ownKey g stage.table).render = k.render) :
    (stage.run g keepMinor r s).isOk = true ↔
      admits r = true ∧ ∃ k', Key.parse stage.table k.render = .ok k' := by
  constructor
  · intro hok
    cases hrun : stage.run g keepMinor r s with
    | error e => simp [hrun, Except.isOk, Except.toBool] at hok
    | ok found =>
      obtain ⟨hadmits, found, -, hset⟩ :=
        (h.run_eq_ok_iff keepMinor r s found.1 happlies).mp ⟨found.2, hrun⟩
      exact ⟨hadmits, hkey ▸ (Store.set_eq_ok.mp hset).1⟩
  · intro hok
    obtain ⟨hadmits, k', hparse⟩ := hok
    rw [← hkey] at hparse hbefore
    have hfind : s.find? (r.ownKey g stage.table) = .ok before := by
      refine Store.find?_eq_ok.mpr ⟨⟨k', hparse⟩, ?_⟩
      cases before with
      | none => exact .inl ⟨hbefore, rfl⟩
      | some row =>
        refine .inr ⟨_, row, hbefore, ?_, rfl⟩
        rw [Table.read?_write, if_pos (h.representable row)]
    obtain ⟨result, hrun⟩ := (h.run_eq_ok_iff keepMinor r s _ happlies).mpr
      ⟨hadmits, before, hfind, Store.set_of_parse hparse s _⟩
    rw [hrun]
    rfl

/-- Whether a stage writes an observation into its row under a key, whatever is there. -/
def writes (stage : Stage) (g : Granularity) (admits : Intake → Bool) (key : String)
    (r : Intake) : Bool :=
  stage.appliesTo r.observation.kind && decide ((r.ownKey g stage.table).render = key) &&
    admits r && (Key.parse stage.table key).isOk

theorem writes_iff {key : String} : stage.writes g admits key r = true ↔
    stage.appliesTo r.observation.kind = true ∧ (r.ownKey g stage.table).render = key ∧
      admits r = true ∧ ∃ k', Key.parse stage.table key = .ok k' := by
  have hcomplete : (Key.parse stage.table key).isOk = true ↔
      ∃ k', Key.parse stage.table key = .ok k' := by
    cases Key.parse stage.table key <;> simp [Except.isOk, Except.toBool]
  rw [writes, Bool.and_eq_true, Bool.and_eq_true, Bool.and_eq_true, decide_eq_true_iff, hcomplete,
    and_assoc, and_assoc]

theorem writers_map (h : stage.Upserts g admits change) (keepMinor : Bool) {k : Key stage.table}
    {stages : List Stage} (hstages : stages.Nodup)
    (happlies : ∀ next ∈ stages, next.appliesTo r.observation.kind = true)
    {before : Option stage.table.Row} (hbefore : s.get? k.render = before.map stage.table.write) :
    Ingestion.writers g keepMinor stage k.render s (stages.map fun next => (r, next)) =
      if stage ∈ stages ∧ stage.writes g admits k.render r then [r] else [] := by
  induction stages generalizing s before with
  | nil => rfl
  | cons next stages ih =>
    obtain ⟨hnext, hstages⟩ := List.nodup_cons.mp hstages
    have happlies' := fun st hst => happlies st (List.mem_cons_of_mem next hst)
    have hrest := ih hstages happlies'
      (get?_after h keepMinor hbefore (happlies next List.mem_cons_self))
    rw [List.map_cons, Ingestion.writers, hrest]
    by_cases hsame : next = stage
    · subst hsame
      have hiff : ((r.ownKey g next.table).render = k.render ∧
          (next.run g keepMinor r s).isOk = true) ↔ next.writes g admits k.render r = true := by
        have hkind := happlies next List.mem_cons_self
        rw [writes_iff, and_iff_right hkind]
        exact and_congr_right fun hkey => isOk_run_iff h keepMinor hbefore hkind hkey
      simp only [true_and, List.mem_cons_self, hiff, hnext, false_and, if_false]
    · rw [if_neg fun h => hsame h.1]
      simp only [List.mem_cons, or_iff_right (Ne.symm hsame)]

theorem writers_runsOf (h : stage.Upserts g admits change) (keepMinor : Bool)
    {k : Key stage.table} {before : Option stage.table.Row}
    (hbefore : s.get? k.render = before.map stage.table.write) :
    Ingestion.writers g keepMinor stage k.render s (Ingestion.runsOf r) =
      if stage.writes g admits k.render r then [r] else [] := by
  have hmem : stage.writes g admits k.render r = true →
      stage ∈ Ingestion.stagesFor r.observation.kind := fun hwrites =>
    List.mem_filter.mpr ⟨by cases stage <;> decide, (writes_iff.mp hwrites).1⟩
  have hstages : (Ingestion.stagesFor r.observation.kind).Nodup :=
    List.Pairwise.filter _ (by decide)
  rw [Ingestion.runsOf, writers_map h keepMinor hstages
    (fun _ hnext => (List.mem_filter.mp hnext).2) hbefore]
  simp only [and_iff_right_of_imp hmem]

/-- The intakes that are written into a row are those that have its key, if the key is complete, and
that the stage admits. -/
theorem writers_flatMap (h : stage.Upserts g admits change) (keepMinor : Bool)
    {k : Key stage.table} {before : Option stage.table.Row}
    (hbefore : s.get? k.render = before.map stage.table.write) (rs : List Intake) :
    Ingestion.writers g keepMinor stage k.render s (rs.flatMap Ingestion.runsOf) =
      rs.filter (stage.writes g admits k.render) := by
  induction rs generalizing s before with
  | nil => rfl
  | cons r rs ih =>
    have hrow := get?_foldl_after h keepMinor
      (fun _ => Ingestion.appliesTo_of_mem_runsOf (r := r)) hbefore
    rw [List.flatMap_cons, Ingestion.writers_append, writers_runsOf h keepMinor hbefore, ih hrow,
      List.filter_cons]
    split <;> rfl

theorem writers_ingested (h : stage.Upserts g admits change) (keepMinor : Bool)
    (os : List Observation) (k : Key stage.table) :
    Ingestion.writers g keepMinor stage k.render .empty (Ingestion.stageRuns os) =
      (Ingestion.intakes os).filter (stage.writes g admits k.render) := by
  have hempty : Store.empty.get? k.render = (none : Option stage.table.Row).map stage.table.write :=
    rfl
  exact writers_flatMap h keepMinor hempty _

theorem sublist_writers (h : stage.Upserts g admits change) (keepMinor : Bool)
    (os : List Observation) (k : Key stage.table) :
    ((Ingestion.writers g keepMinor stage k.render .empty (Ingestion.stageRuns os)).map
      (·.observation)).Sublist os := by
  rw [writers_ingested h]
  exact (List.filter_sublist.map _).trans (Ingestion.sublist_intakes os)

theorem of_mem_writers (h : stage.Upserts g admits change) {keepMinor : Bool}
    {os : List Observation} {k : Key stage.table}
    (hr : r ∈ Ingestion.writers g keepMinor stage k.render .empty (Ingestion.stageRuns os)) :
    Metadata.ofPayload r.observation.payload = .ok r.metadata ∧
      (r.ownKey g stage.table).render = k.render := by
  rw [writers_ingested h] at hr
  obtain ⟨hr, hwrites⟩ := List.mem_filter.mp hr
  exact ⟨Ingestion.ofPayload_of_mem_intakes hr, (writes_iff.mp hwrites).2.1⟩

/-- If `row` is what the `writers` make of no row, it is the row of an ingested history. -/
theorem row_ingested (h : stage.Upserts g admits change) (keepMinor : Bool) (os : List Observation)
    (k : Key stage.table) {rs : List Intake}
    (hrs : Ingestion.writers g keepMinor stage k.render .empty (Ingestion.stageRuns os) = rs)
    {row : Option stage.table.Row}
    (hrow : rs.foldl (fun before r => some (change r before)) none = row) :
    (rs.map (·.observation)).Sublist os ∧
    (∀ r ∈ rs, Metadata.ofPayload r.observation.payload = .ok r.metadata ∧
      (r.ownKey g stage.table).render = k.render) ∧
    (ingested g keepMinor os).get? k.render = row.map stage.table.write ∧
      ((ingested g keepMinor os).get? k.render).bind stage.table.read? = row := by
  subst hrs hrow
  have htext := get?_ingested h keepMinor os k
  exact ⟨sublist_writers h keepMinor os k, fun r hr => of_mem_writers h hr, htext,
    Table.bind_read?_of_eq h.representable htext⟩

end Stage

end WatchHistory
