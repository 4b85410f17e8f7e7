import WatchHistory.Proofs.Event.Tally
import WatchHistory.Proofs.Ingest.Frames

/-!
# Ingesting an observation again after an interruption

Ingestion may be interrupted between two stages (`Ingestion.interrupted`). The stages that keep, sum
up and relate come to the same however often they run (`Stage.settled`). The first stage of every
kind adds to what it finds, and does not notice that it has run before:

* `process_interrupted_eq_iff`: ingesting the observation again leaves the store of an
  uninterrupted run exactly if no stage had run, or the first one adds nothing when it runs again.
-/

set_option autoImplicit false

namespace WatchHistory

open Store

/-! ## Rows that are replaced -/

namespace Intake

variable {r : Intake}

theorem observe_observe (before : Option Summary) (links : List String) :
    r.observe (some { r.observe before with relationships := links }) =
      { r.observe before with relationships := links } := by
  cases before with
  | none => by_cases hadd : r.observation.change = Change.add <;> simp [observe, hadd]
  | some known => by_cases hadd : r.observation.change = Change.add <;> simp [observe, hadd]

theorem mem_addLinks {known links : List String} {link : String} :
    link ∈ addLinks known links ↔ link ∈ known ∨ link ∈ links := by
  unfold addLinks
  induction links generalizing known with
  | nil => simp
  | cons first links ih =>
    rw [List.foldl_cons, ih, List.mem_cons, ← or_assoc]
    apply or_congr_left
    split
    · next hknown =>
      exact ⟨.inl, fun h => h.elim id fun h => h ▸ List.contains_iff_mem.mp hknown⟩
    · simp

theorem addLinks_of_subset {known links : List String} (h : ∀ link ∈ links, link ∈ known) :
    addLinks known links = known := by
  unfold addLinks
  induction links with
  | nil => rfl
  | cons first links ih =>
    rw [List.foldl_cons, if_pos (List.contains_iff_mem.mpr (h first List.mem_cons_self))]
    exact ih fun link hlink => h link (List.mem_cons_of_mem _ hlink)

theorem addLinks_addLinks (known links : List String) :
    addLinks (addLinks known links) links = addLinks known links :=
  addLinks_of_subset fun _ hlink => mem_addLinks.mpr (.inr hlink)

end Intake

/-- Whether a store is what replacing a row, depending on what is there, leaves of another store. -/
def Store.Replaces {t : Table} (k : Key t) (f : Option t.Row → t.Row) (s s' : Store) : Prop :=
  ∃ before, s.find? k = .ok before ∧ s.set k (f before) = .ok s'

namespace Store.Replaces

variable {t : Table} {k : Key t} {f : Option t.Row → t.Row} {s s₁ s' s'' : Store}

theorem of_agree (hagree : Agree t s s') (h : Replaces k f s' s'') : ∃ s₁, Replaces k f s s₁ := by
  obtain ⟨before, hfind, hset⟩ := h
  obtain ⟨hparse, -⟩ := set_eq_ok.mp hset
  exact ⟨_, before, (hagree.find?_eq k).trans hfind, set_eq_ok.mpr ⟨hparse, rfl⟩⟩

theorem again (hf : ∀ before, f (some (f before)) = f before) (h : Replaces k f s s₁)
    (hagree : Agree t s₁ s') (h' : Replaces k f s' s'') : s'' = s' := by
  obtain ⟨before, -, hset⟩ := h
  obtain ⟨found, hfind, hset'⟩ := h'
  obtain ⟨⟨k', hk'⟩, hfound⟩ := find?_eq_ok.mp hfind
  obtain ⟨rest, hrest⟩ := exists_stem_append hk'
  have htext : s'.get? k.render = some (t.write (f before)) := by
    rw [← hagree _ _ hrest, get?_set hset, if_pos rfl]
  rcases hfound with ⟨hnone, -⟩ | ⟨text, row, hrow, hread, rfl⟩
  · rw [hnone] at htext
    cases htext
  · obtain rfl := Option.some.inj (hrow.symm.trans htext)
    rw [Table.eq_of_read?_write hread, hf] at hset'
    exact eq_of_set hset' htext

end Store.Replaces

/-! ## Stages that come to the same however often they run -/

namespace Stage

variable {g : Granularity} {keepMinor : Bool} {r : Intake} {s s' : Store} {t : Table}

/-- A stage that replaces a row, by one that is its own replacement, changes nothing when it runs
again. -/
theorem settled_of_replaces {stage : Stage} {k : Key t} {f : Option t.Row → t.Row}
    (hf : ∀ before, f (some (f before)) = f before)
    (hrun : ∀ s s', (∃ result, stage.run g keepMinor r s = .ok (s', result)) ↔ Replaces k f s s')
    (hagree : Agree t (stage.after g keepMinor r s) s') : stage.after g keepMinor r s' = s' := by
  rcases after_spec stage g keepMinor r s' with ⟨result', hrun'⟩ | ⟨-, hsame'⟩
  · have hreplaces' := (hrun _ _).mp ⟨result', hrun'⟩
    rcases after_spec stage g keepMinor r s with ⟨result, hok⟩ | ⟨⟨e, herror⟩, hsame⟩
    · exact Replaces.again hf ((hrun _ _).mp ⟨result, hok⟩) hagree hreplaces'
    · rw [hsame] at hagree
      obtain ⟨s₁, hreplaces⟩ := hreplaces'.of_agree hagree
      obtain ⟨result, hok⟩ := (hrun _ _).mpr hreplaces
      cases herror.symm.trans hok
  · exact hsame'

theorem settled_watch (hagree : Agree .watch (watch.after g keepMinor r s) s') :
    watch.after g keepMinor r s' = s' := by
  rcases after_spec .watch g keepMinor r s' with ⟨result', hrun'⟩ | ⟨-, hsame'⟩
  · obtain ⟨kept', hkeep', -⟩ := run_watch_eq_ok.mp hrun'
    obtain ⟨hnew', hset'⟩ := Intake.keep_eq_ok.mp hkeep'
    cases kept' with
    | false => exact Eq.symm hset'
    | true =>
      rcases after_spec .watch g keepMinor r s with ⟨result, hrun⟩ | ⟨⟨e, herror⟩, hsame⟩
      · obtain ⟨kept, hkeep, -⟩ := run_watch_eq_ok.mp hrun
        obtain ⟨hnew, hset⟩ := Intake.keep_eq_ok.mp hkeep
        cases kept with
        | true =>
          obtain ⟨⟨k, hk⟩, -⟩ := set_eq_ok.mp hset'
          obtain ⟨rest, hrest⟩ := exists_stem_append hk
          exact eq_of_set hset' (by rw [← hagree _ _ hrest, get?_set hset, if_pos rfl])
        | false =>
          rw [← show s = watch.after g keepMinor r s from hset] at hagree
          rw [Intake.isNew_eq hagree, hnew'] at hnew
          cases hnew
      · rw [hsame] at hagree
        obtain ⟨hparse, -⟩ := set_eq_ok.mp hset'
        have hkeep : r.keep g keepMinor s = .ok (_, true) :=
          Intake.keep_eq_ok.mpr
            ⟨(Intake.isNew_eq hagree).trans hnew', set_eq_ok.mpr ⟨hparse, rfl⟩⟩
        cases herror.symm.trans (run_watch_eq_ok.mpr ⟨true, hkeep, rfl⟩)
  · exact hsame'

/-- The stages other than `.eventCount` and `.activity` change nothing when they run again, as long
as the rows of their own table are those that they left. -/
theorem settled {stage : Stage} (hcount : stage ≠ .eventCount) (hactivity : stage ≠ .activity)
    (hagree : Agree stage.table (stage.after g keepMinor r s) s') :
    stage.after g keepMinor r s' = s' := by
  cases stage with
  | eventCount => exact absurd rfl hcount
  | activity => exact absurd rfl hactivity
  | watch => exact settled_watch hagree
  | summary =>
    by_cases hkind : r.observation.kind = Payload.eventKind
    · unfold after run Intake.summarize
      rw [if_pos hkind]
      rfl
    · refine settled_of_replaces (k := r.key g .summary r.metadata.uid)
        (f := fun before => { r.observe before with relationships := r.ownerKeys g })
        (fun before => ?_) (fun s s' => ?_) hagree
      · rw [Intake.observe_observe]
      · simp only [run_summary_eq_ok, exists_and_left, exists_eq, and_true]
        exact Intake.summarize_eq_ok hkind
  | relation =>
    by_cases hkind : r.observation.kind = Payload.podKind
    · cases hnode : Payload.nodeName? r.observation.payload with
      | error e =>
        rcases after_spec .relation g keepMinor r s' with ⟨result, hrun⟩ | ⟨-, hsame⟩
        · obtain ⟨_, node, -, hok, -⟩ :=
            (Intake.relate_eq_ok hkind).mp (run_relation_eq_ok.mp hrun).1
          cases hnode.symm.trans hok
        · exact hsame
      | ok node =>
        refine settled_of_replaces (k := r.key g .relation r.metadata.uid)
          (f := fun before => { r.observe before with
            relationships := Intake.addLinks (r.observe before).relationships
              (r.ownerKeys g ++ node.toList.map (r.nodeKey g)) })
          (fun before => ?_) (fun s s' => ?_) hagree
        · rw [Intake.observe_observe]
          dsimp only
          rw [Intake.addLinks_addLinks]
        · simp only [run_relation_eq_ok, exists_and_left, exists_eq, and_true]
          rw [Intake.relate_eq_ok hkind, hnode]
          simp only [Except.ok.injEq, exists_and_left, exists_eq_left']
          rfl
    · unfold after run Intake.relate
      rw [if_pos hkind]
      rfl

/-- A series of stages other than `.eventCount` and `.activity` changes nothing when all of them run
again. -/
theorem foldl_after_foldl_after (g : Granularity) (keepMinor : Bool) (r : Intake) (s : Store)
    {stages : List Stage} (hcount : .eventCount ∉ stages)
    (hactivity : .activity ∉ stages) (hnodup : stages.Nodup) :
    stages.foldl (after g keepMinor r) (stages.foldl (after g keepMinor r) s) =
      stages.foldl (after g keepMinor r) s := by
  have hsettled : ∀ stage ∈ stages, stage.after g keepMinor r
      (stages.foldl (after g keepMinor r) s) = stages.foldl (after g keepMinor r) s := by
    intro stage hstage
    obtain ⟨earlier, later, rfl⟩ := List.append_of_mem hstage
    refine settled (s := earlier.foldl (after g keepMinor r) s) (fun h => hcount (h ▸ hstage))
      (fun h => hactivity (h ▸ hstage)) ?_
    rw [List.foldl_append, List.foldl_cons]
    apply agree_foldl_after
    intro other hother htable
    have hsame := table_injective htable
    have hlater := (List.nodup_cons.mp (List.nodup_append.mp hnodup).2.1).1
    exact hlater (hsame ▸ hother)
  have hall : ∀ again : List Stage, (∀ stage ∈ again, stage ∈ stages) →
      again.foldl (after g keepMinor r) (stages.foldl (after g keepMinor r) s) =
        stages.foldl (after g keepMinor r) s := by
    intro again hagain
    induction again with
    | nil => rfl
    | cons stage again ih =>
      rw [List.foldl_cons, hsettled stage (hagain stage List.mem_cons_self)]
      exact ih fun x hx => hagain x (List.mem_cons_of_mem _ hx)
  exact hall stages fun _ h => h

/-- A series of stages other than `.eventCount` and `.activity` that was interrupted is completed by
running all of them again. -/
theorem foldl_after_take (g : Granularity) (keepMinor : Bool) (r : Intake) (s : Store)
    {stages : List Stage} (hcount : .eventCount ∉ stages)
    (hactivity : .activity ∉ stages) (hnodup : stages.Nodup) (n : Nat) :
    stages.foldl (after g keepMinor r) ((stages.take n).foldl (after g keepMinor r) s) =
      stages.foldl (after g keepMinor r) s := by
  have hagain := foldl_after_foldl_after g keepMinor r s
    (fun h : _ ∈ stages.take n => hcount (List.mem_of_mem_take h))
    (fun h => hactivity (List.mem_of_mem_take h)) (hnodup.sublist (List.take_sublist n stages))
  conv => lhs; arg 3; rw [← List.take_append_drop n stages]
  conv => rhs; arg 3; rw [← List.take_append_drop n stages]
  rw [List.foldl_append, List.foldl_append, hagain]

end Stage

/-! ## The first stage -/

namespace Intake

variable {r : Intake} {g : Granularity} {keepMinor : Bool} {s : Store}

/-- Whether the first stage adds to what it finds in a store: it counts some minutes of an event,
or it notes another observation of any other object. -/
def Adds (r : Intake) (g : Granularity) (s : Store) : Prop :=
  if r.observation.kind = Payload.eventKind then
    ∃ s' minutes, r.countEvent g s = .ok (s', minutes) ∧ minutes ≠ 0
  else ∃ s', r.noteActivity g s = .ok s'

theorem record_ne (a : Activity) (changed : Bool) (second : Int) : a.record changed second ≠ a := by
  intro h
  have hchanged := congrArg (fun a : Activity => a.changedAt.length) h
  have hnoChange := congrArg (fun a : Activity => a.noChangeAt.length) h
  unfold Activity.record at hchanged hnoChange
  split at hchanged <;> simp at hchanged
  split at hnoChange <;> simp_all

/-- The stage that runs first for a record. -/
def firstStage (r : Intake) : Stage :=
  if r.observation.kind = Payload.eventKind then .eventCount else .activity

theorem not_agree_of_adds (keepMinor : Bool) (h : r.Adds g s) :
    ¬ Agree r.firstStage.table s (r.firstStage.after g keepMinor r s) := by
  intro hagree
  unfold Adds at h
  unfold firstStage at hagree
  split at h
  · next hkind =>
    rw [if_pos hkind] at hagree
    obtain ⟨s', minutes, hcount, hne⟩ := h
    rcases countEvent_cases hkind hcount with ⟨hzero, -⟩ | ⟨-, p, k, hk, hdiffers⟩
    · exact hne hzero
    · obtain ⟨rest, hrest⟩ := exists_stem_append hk
      have hafter : Stage.eventCount.after g keepMinor r s = s' := by
        unfold Stage.after
        rw [Stage.run_eventCount_eq_ok.mpr ⟨minutes, hcount, rfl⟩]
      rw [hafter] at hagree
      exact hdiffers (hagree _ _ hrest).symm
  · next hkind =>
    rw [if_neg hkind] at hagree
    obtain ⟨s', hnote⟩ := h
    obtain ⟨previous, activity, -, hactivity, hset⟩ := (noteActivity_eq_ok hkind).mp hnote
    obtain ⟨⟨k, hk⟩, -⟩ := set_eq_ok.mp hset
    obtain ⟨rest, hrest⟩ := exists_stem_append hk
    have hafter : Stage.activity.after g keepMinor r s = s' := by
      unfold Stage.after
      rw [Stage.run_activity_eq_ok.mpr ⟨hnote, rfl⟩]
    rw [hafter] at hagree
    refine get?_ne_write hactivity
      (record_ne activity (r.hasChanged previous) r.observation.time.seconds) ?_
    rw [hagree _ _ hrest, get?_set hset, if_pos rfl]

theorem after_eq_of_not_adds (h : ¬ r.Adds g s) : r.firstStage.after g keepMinor r s = s := by
  unfold Adds at h
  unfold firstStage
  split at h
  · next hkind =>
    rw [if_pos hkind]
    rcases Stage.after_spec .eventCount g keepMinor r s with ⟨result, hrun⟩ | ⟨-, hsame⟩
    · obtain ⟨minutes, hcount, -⟩ := Stage.run_eventCount_eq_ok.mp hrun
      rcases countEvent_cases hkind hcount with ⟨-, hsame⟩ | ⟨hne, -⟩
      · exact hsame
      · exact absurd ⟨_, minutes, hcount, hne⟩ h
    · exact hsame
  · next hkind =>
    rw [if_neg hkind]
    rcases Stage.after_spec .activity g keepMinor r s with ⟨result, hrun⟩ | ⟨-, hsame⟩
    · exact absurd ⟨_, (Stage.run_activity_eq_ok.mp hrun).1⟩ h
    · exact hsame

end Intake

/-! ## Interruptions -/

namespace Ingestion

variable {g : Granularity} {keepMinor : Bool}

/-- The store that is left if ingestion of an observation is interrupted after some stages. -/
def interrupted (g : Granularity) (keepMinor : Bool) (n : Nat) (o : Observation) (s : Store) :
    Store :=
  match Intake.ofObservation o with
  | .error _ => s
  | .ok r => ((stagesFor o.kind).take n).foldl (Stage.after g keepMinor r) s

theorem stagesFor_eq (r : Intake) : ∃ rest, stagesFor r.observation.kind = r.firstStage :: rest ∧
    .eventCount ∉ rest ∧ .activity ∉ rest ∧ (r.firstStage :: rest).Nodup := by
  unfold Intake.firstStage
  by_cases hkind : r.observation.kind = Payload.eventKind
  · rw [if_pos hkind, hkind, stagesFor_event]
    exact ⟨_, rfl, by decide, by decide, by decide⟩
  · rw [if_neg hkind, stagesFor_of_ne hkind]
    refine ⟨_, rfl, ?_⟩
    split <;> decide

/-- **Ingesting an interrupted observation again** leaves the store of an uninterrupted run exactly
if no stage had run, or the first stage adds nothing to the store that was left. -/
theorem process_interrupted_eq_iff (i : Ingestion) (o : Observation) (n : Nat)
    (counters : IngestCounters) :
    (process g keepMinor ⟨interrupted g keepMinor n o i.store, counters⟩ o).store =
        (process g keepMinor i o).store ↔
      n = 0 ∨ ∀ r, Intake.ofObservation o = .ok r →
        ¬ r.Adds g (interrupted g keepMinor n o i.store) := by
  rw [store_process, store_process]
  unfold interrupted
  cases hread : Intake.ofObservation o with
  | error e => simp
  | ok r =>
    obtain rfl := Intake.observation_ofObservation hread
    obtain ⟨rest, hstages, hcount, hactivity, hnodup⟩ := stagesFor_eq r
    obtain ⟨hfirst, hrest⟩ := List.nodup_cons.mp hnodup
    cases n with
    | zero => simp
    | succ n =>
      have huninterrupted := Stage.foldl_after_take g keepMinor r
        (r.firstStage.after g keepMinor r i.store) hcount hactivity hrest n
      dsimp only
      rw [hstages, List.take_succ_cons, List.foldl_cons, List.foldl_cons, List.foldl_cons,
        ← huninterrupted]
      generalize (rest.take n).foldl (Stage.after g keepMinor r)
        (r.firstStage.after g keepMinor r i.store) = left
      -- From here on the store that was left is all that matters.
      have hframe : ∀ s, Agree r.firstStage.table s (rest.foldl (Stage.after g keepMinor r) s) :=
        fun s => Stage.agree_foldl_after fun stage hstage htable =>
          hfirst (Stage.table_injective htable ▸ hstage)
      constructor
      · intro hsame
        refine .inr fun r' hr' hadds => ?_
        cases hr'
        apply Intake.not_agree_of_adds keepMinor hadds
        exact (hframe left).trans (hsame ▸ (hframe _).symm)
      · rintro (hzero | hnot)
        · cases hzero
        · rw [Intake.after_eq_of_not_adds (hnot r rfl)]

/-- A pod observed in the first second of 2019. -/
def firstPod : Observation :=
  ⟨Partition.startAt 1546300800, "Pod", .add,
    "\x7b\"metadata\":\x7b\"name\":\"web\",\"namespace\":\"ns\",\"uid\":\"u\"\x7d\x7d"⟩

/-- If the ingestion of `firstPod` is interrupted after one stage, the pod is noted twice in the
end. -/
theorem process_interrupted_firstPod_ne :
    (process .hour false ⟨interrupted .hour false 1 firstPod .empty, .zero⟩ firstPod).store ≠
      (process .hour false ⟨.empty, .zero⟩ firstPod).store := by
  have htwice : (process .hour false ⟨interrupted .hour false 1 firstPod .empty, .zero⟩
      firstPod).store.get? "/watchactivity/001546300800/Pod/ns/web/u" =
        some "\x7b\"changed_at\":[],\"no_change_at\":[1546300800,1546300800]\x7d" := by
    decide +kernel
  have honce : (process .hour false ⟨.empty, .zero⟩ firstPod).store.get?
      "/watchactivity/001546300800/Pod/ns/web/u" =
        some "\x7b\"changed_at\":[],\"no_change_at\":[1546300800]\x7d" := by
    decide +kernel
  intro hsame
  rw [hsame, honce] at htwice
  exact absurd (Option.some.inj htwice) (by decide)

end Ingestion

end WatchHistory
