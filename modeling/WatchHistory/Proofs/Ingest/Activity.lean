import Mathlib.Data.List.Induction
import WatchHistory.Proofs.Ingest.Isolation

/-!
# The activity of one object

While the observations of an object come in the order of their times, the one before the next is the
last one that came (`Noted.previous?_eq`), so each of them is told apart by whether it differs from
that one (`withChanges`), and is added to one list of the row of its partition. So the rows are
those that `activityWithin?` splits the observations into, however many partitions they span
(`ingested_notes_activity`).

* `Noted` is what is known of the store after a run. From it follows what the next observation
  writes (`Noted.set_activity`, `set_observation`), and this keeps it (`Noted.after`).
-/

set_option autoImplicit false

namespace WatchHistory

open WatchHistory.Partition Store

/-! ## Changes -/

/-- The version of the observed object, if the payload can be read. -/
def Observation.version? (o : Observation) : Option String :=
  (Metadata.ofPayload o.payload).toOption.map Metadata.resourceVersion

/-- Whether the version of an observed object differs from the one that was observed before, if
any. -/
def Observation.differsFrom (o : Observation) (before : Option Observation) : Bool :=
  before.any fun b => b.version? ≠ o.version?

/-- Observations with whether each of them differs from the one before it. -/
def withChanges (before : Option Observation) : List Observation → List (Observation × Bool)
  | [] => []
  | o :: os => (o, o.differsFrom before) :: withChanges (some o) os

/-- The seconds of observations, told apart by whether they are changes. -/
def Activity.ofChanges (changes : List (Observation × Bool)) : Activity where
  changedAt := (changes.filter fun c => c.2).map fun c => c.1.time.seconds
  noChangeAt := (changes.filter fun c => !c.2).map fun c => c.1.time.seconds

/-- The activity within a partition, if anything was observed in it. -/
def activityWithin? (g : Granularity) (partition : String) (os : List Observation) :
    Option Activity :=
  let within := (withChanges none os).filter fun c => g.partitionOf c.1.time = partition
  if within.isEmpty then none else some (.ofChanges within)

/-- The row in the partition of the next observation, with that one added to it. -/
def activityWith (g : Granularity) (os : List Observation) (o : Observation) : Activity :=
  ((activityWithin? g (g.partitionOf o.time) os).getD .initial).record (o.differsFrom os.getLast?)
    o.time.seconds

theorem withChanges_concat (before : Option Observation) (os : List Observation)
    (o : Observation) :
    withChanges before (os ++ [o]) =
      withChanges before os ++ [(o, o.differsFrom (os.getLast?.or before))] := by
  induction os generalizing before with
  | nil => rfl
  | cons p os ih =>
    have hlast : (p :: os).getLast?.or before = os.getLast?.or (some p) := by
      cases hos : os.getLast? <;> simp [List.getLast?_cons, hos]
    rw [hlast, List.cons_append, withChanges, withChanges, ih, List.cons_append]

namespace Activity

theorem ofChanges_concat (changes : List (Observation × Bool)) (o : Observation) (changed : Bool) :
    ofChanges (changes ++ [(o, changed)]) = (ofChanges changes).record changed o.time.seconds := by
  cases changed <;> simp [ofChanges, record]

theorem representable_record {a : Activity} {changed : Bool} {second : Int}
    (ha : a.representable = true) (hsecond : Decimal.fits second = true) :
    (a.record changed second).representable = true := by
  unfold representable at ha ⊢
  cases changed <;> simp_all [record]

end Activity

theorem activityWithin?_concat (g : Granularity) (p : String) (os : List Observation)
    (o : Observation) :
    activityWithin? g p (os ++ [o]) =
      if g.partitionOf o.time = p then some (activityWith g os o) else activityWithin? g p os := by
  have hgetD : ∀ changes : List (Observation × Bool),
      (if changes.isEmpty then none else some (Activity.ofChanges changes)).getD .initial =
        Activity.ofChanges changes := by
    intro changes
    cases changes <;> rfl
  unfold activityWith activityWithin?
  dsimp only
  rw [hgetD, withChanges_concat, Option.or_none, List.filter_append]
  by_cases hp : g.partitionOf o.time = p
  · subst hp
    simp [Activity.ofChanges_concat]
  · have hnone : [(o, o.differsFrom os.getLast?)].filter
        (fun c => decide (g.partitionOf c.1.time = p)) = [] := by simp [hp]
    rw [hnone, List.append_nil, if_neg hp]

theorem representable_activityWith {g : Granularity} {os : List Observation} {o : Observation}
    (h : ∀ p ∈ os ++ [o], Decimal.fits p.time.seconds = true) :
    (activityWith g os o).representable = true := by
  have hwithin : ∀ p, ((activityWithin? g p os).getD .initial).representable = true := by
    have hos : ∀ o ∈ os, Decimal.fits o.time.seconds = true :=
      fun o ho => h o (List.mem_append_left _ ho)
    intro p
    clear h
    induction os using List.reverseRecOn with
    | nil => rfl
    | append_singleton os o ih =>
      have hinit := ih fun o' ho' => hos o' (List.mem_append_left _ ho')
      rw [activityWithin?_concat]
      split
      · next hp =>
        subst hp
        exact Activity.representable_record hinit (hos o (by simp))
      · exact hinit
  exact Activity.representable_record (hwithin _) (h o (by simp))

theorem Instant.Timely.fits_seconds {t : Instant} (h : t.Timely) :
    Decimal.fits t.seconds = true := by
  have hfirst := h.first
  have hlast := Key.seconds_le_of_fits h.fits
  refine Decimal.fits_iff.mpr ⟨?_, ?_⟩
  · unfold Decimal.least
    omega
  · unfold Decimal.greatest
    omega

/-! ## Observations of one object -/

/-- Whether all observations are of one object, which is no event and no node, in the order of their
times. -/
structure ObjectRun (x : ObjectName) (uid : String) (os : List Observation) : Prop where
  not_event : x.kind ≠ Payload.eventKind
  not_node : x.kind ≠ Payload.nodeKind
  searchable : Searchable x.kind x.ns x.name
  uid_ne : uid ≠ ""
  slash_uid : '/' ∉ uid.toList
  told : ∀ o ∈ os, ∃ m, Metadata.ofPayload o.payload = .ok m ∧
    (⟨o.kind, m.ns, m.name⟩ : ObjectName) = x ∧ m.uid = uid
  timely : ∀ o ∈ os, o.time.Timely
  ascending : os.Pairwise fun a b => a.time < b.time

/-- The key of an object's activity in a partition. -/
def activityKey (x : ObjectName) (uid partition : String) : Key .activity :=
  ⟨partition, x.kind, x.ns, x.name, uid⟩

namespace ObjectRun

variable {x : ObjectName} {uid : String} {os : List Observation} {o : Observation}

theorem left {more : List Observation} (h : ObjectRun x uid (os ++ more)) : ObjectRun x uid os where
  not_event := h.not_event
  not_node := h.not_node
  searchable := h.searchable
  uid_ne := h.uid_ne
  slash_uid := h.slash_uid
  told := fun o ho => h.told o (List.mem_append_left _ ho)
  timely := fun o ho => h.timely o (List.mem_append_left _ ho)
  ascending := (List.pairwise_append.mp h.ascending).1

theorem time_lt (h : ObjectRun x uid (os ++ [o])) {p : Observation} (hp : p ∈ os) :
    p.time < o.time :=
  (List.pairwise_append.mp h.ascending).2.2 p hp o List.mem_cons_self

theorem not_lt_of_getLast? (h : ObjectRun x uid os) {last p : Observation}
    (hlast : os.getLast? = some last) (hp : p ∈ os) : ¬ last.time < p.time := by
  obtain ⟨front, rfl⟩ := List.getLast?_eq_some_iff.mp hlast
  rcases List.mem_append.mp hp with hp | hp
  · exact fun hlt => StrictOrder.irrefl _ (StrictOrder.trans hlt (h.time_lt hp))
  · rw [List.mem_singleton.mp hp]
    exact StrictOrder.irrefl _

theorem ordinary (h : ObjectRun x uid os) (ho : o ∈ os) : o.Ordinary := by
  obtain ⟨m, hm, rfl, -⟩ := h.told o ho
  have hfirst := (h.timely o ho).first
  refine ⟨h.not_event, by omega, (h.timely o ho).last, fun y hy => ?_⟩
  rw [Observation.object?, hm] at hy
  cases hy
  exact h.searchable

theorem exists_intake (h : ObjectRun x uid os) (ho : o ∈ os) :
    ∃ r, Intake.ofObservation o = .ok r ∧ r.observation = o ∧
      Metadata.ofPayload o.payload = .ok r.metadata ∧ r.object = x ∧ r.metadata.uid = uid := by
  obtain ⟨m, hm, rfl, huid⟩ := h.told o ho
  refine ⟨⟨o, m, .initial⟩, bind_eq_ok.mpr ⟨m, hm, ?_⟩, rfl, hm, rfl, huid⟩
  have hkind : o.kind ≠ Payload.eventKind := h.not_event
  rw [if_neg hkind]
  rfl

theorem parse_activityKey (h : ObjectRun x uid os) {p : String} (hp : '/' ∉ p.toList) :
    Key.parse .activity (activityKey x uid p).render = .ok (activityKey x uid p) := by
  have hlast : Key.lastText .activity uid ≠ [] := mt Key.lastText_eq_nil_iff.mp h.uid_ne
  refine Key.parse_render ?_ hlast (congrArg some (String.ofList_toList))
  simp only [Key.fields, activityKey, List.mem_cons, List.not_mem_nil, or_false, forall_eq_or_imp,
    forall_eq]
  exact ⟨hp, h.searchable.slash_kind, h.searchable.slash_ns, h.searchable.slash_name, h.slash_uid⟩

theorem partition_eq_of_render_eq (h : ObjectRun x uid os) {p q : String} (hp : '/' ∉ p.toList)
    (hq : '/' ∉ q.toList) (hsame : (activityKey x uid p).render = (activityKey x uid q).render) :
    p = q := by
  have hparse := h.parse_activityKey hp
  rw [hsame, h.parse_activityKey hq] at hparse
  exact (congrArg Key.partition (Except.ok.inj hparse)).symm

end ObjectRun

/-- What is known of a store after all observations so far of an object: the last one is kept, all
that are kept are among them, and the rows of its activity are theirs. -/
structure Noted (g : Granularity) (x : ObjectName) (uid : String) (os : List Observation)
    (s : Store) : Prop where
  filled : s.Filled g fun _ => True
  stored : ∀ o, os.getLast? = some o →
    s.get? (Key.observation g x.kind x.ns x.name o.time).render = some (Table.watch.write o)
  sighted : ∀ key row k, s.get? key = some row → Observes x.kind x.ns x.name key k →
    ∃ o ∈ os, key = (Key.observation g x.kind x.ns x.name o.time).render
  activity : ∀ p, '/' ∉ p.toList → s.find? (activityKey x uid p) = .ok (activityWithin? g p os)

/-! ## Steps -/

section

variable {g : Granularity} {keepMinor : Bool} {r : Intake} {os : List Observation} {s : Store}

theorem Intake.hasChanged_eq (hm : Metadata.ofPayload r.observation.payload = .ok r.metadata)
    {before : Option Observation}
    (hbefore : ∀ o, before = some o → ∃ m, Metadata.ofPayload o.payload = .ok m) :
    r.hasChanged before = r.observation.differsFrom before := by
  cases before with
  | none => rfl
  | some o =>
    obtain ⟨m, hm'⟩ := hbefore o rfl
    simp [hasChanged, Observation.differsFrom, Observation.version?, hm, hm', Except.toOption]

/-- The observation that `previous?` finds before the next one of the run is the last one that
came. -/
theorem Noted.previous?_eq (hs : Noted g r.object r.metadata.uid os s)
    (h : ObjectRun r.object r.metadata.uid (os ++ [r.observation])) :
    r.previous? g s = .ok os.getLast? := by
  obtain ⟨ids, hids⟩ := hs.filled.exists_lists
  have htimely := h.timely r.observation (by simp)
  cases hlast : os.getLast? with
  | none =>
    obtain rfl := List.getLast?_eq_none_iff.mp hlast
    refine Intake.previous?_eq_none h.searchable hids fun key row k hrow hk => ?_
    obtain ⟨o, ho, -⟩ := hs.sighted key row k hrow hk
    cases ho
  | some last =>
    have hmem := List.mem_of_getLast? hlast
    refine Intake.previous?_eq_some h.searchable hids (h.left.timely last hmem) htimely
      (Instant.le_of_lt (h.time_lt hmem)) (hs.stored last hlast) fun key row k hrow hk => ?_
    obtain ⟨o, ho, hkey⟩ := hs.sighted key row k hrow hk
    exact .inr ⟨o.time, h.left.timely o ho, h.left.not_lt_of_getLast? hlast ho, hkey⟩

/-- The stage `.activity` adds an observation to the row of its partition. -/
theorem Noted.set_activity (hs : Noted g r.object r.metadata.uid os s)
    (h : ObjectRun r.object r.metadata.uid (os ++ [r.observation]))
    (hm : Metadata.ofPayload r.observation.payload = .ok r.metadata) (keepMinor : Bool) :
    s.set (activityKey r.object r.metadata.uid (g.partitionOf r.observation.time))
      (activityWith g os r.observation) = .ok (Stage.activity.after g keepMinor r s) := by
  have hpartition : '/' ∉ (g.partitionOf r.observation.time).toList := slash_notMem_idAt _
  obtain ⟨s₁, hset⟩ : ∃ s₁, s.set (activityKey r.object r.metadata.uid
      (g.partitionOf r.observation.time)) (activityWith g os r.observation) = .ok s₁ :=
    ⟨_, set_of_parse (h.parse_activityKey hpartition) s _⟩
  have hchanged : r.hasChanged os.getLast? = r.observation.differsFrom os.getLast? := by
    refine Intake.hasChanged_eq hm fun o ho => ?_
    obtain ⟨m, hm', -⟩ := h.left.told o (List.mem_of_getLast? ho)
    exact ⟨m, hm'⟩
  have hnote : r.noteActivity g s = .ok s₁ := by
    refine (Intake.noteActivity_eq_ok h.not_event).mpr
      ⟨_, _, hs.previous?_eq h, getOrInitial_eq_ok.mpr ⟨_, hs.activity _ hpartition, rfl⟩, ?_⟩
    rw [hchanged]
    exact hset
  unfold Stage.after
  rw [Stage.run_activity_eq_ok.mpr ⟨hnote, rfl⟩]
  exact hset

theorem ObjectRun.set_observation (h : ObjectRun r.object r.metadata.uid (os ++ [r.observation]))
    (g : Granularity) (keepMinor : Bool) (s : Store) :
    s.set (Key.observation g r.object.kind r.object.ns r.object.name r.observation.time)
      r.observation = .ok (Stage.watch.after g keepMinor r s) :=
  Stage.set_after_watch keepMinor s h.searchable (h.timely r.observation (by simp)) h.not_node

theorem agree_foldl_stagesFor (hkind : r.observation.kind ≠ Payload.eventKind) {t : Table}
    (ht : t = .activity ∨ t = .watch) (g : Granularity) (keepMinor : Bool) (s : Store) :
    Agree t (Stage.watch.after g keepMinor r (Stage.activity.after g keepMinor r s))
      ((Ingestion.stagesFor r.observation.kind).foldl (Stage.after g keepMinor r) s) := by
  rw [Ingestion.stagesFor_of_ne hkind, List.foldl_cons, List.foldl_cons]
  refine Stage.agree_foldl_after fun stage hstage => ?_
  have hstage : stage = .summary ∨ stage = .relation := by
    rcases List.mem_cons.mp hstage with hstage | hstage
    · exact .inl hstage
    · split at hstage
      · exact .inr (List.mem_singleton.mp hstage)
      · cases hstage
  rcases hstage with rfl | rfl <;> rcases ht with rfl | rfl <;> decide

theorem Noted.get_after (hs : Noted g r.object r.metadata.uid os s)
    (h : ObjectRun r.object r.metadata.uid (os ++ [r.observation]))
    (hm : Metadata.ofPayload r.observation.payload = .ok r.metadata) (keepMinor : Bool)
    {s' : Store} (hs' : (Ingestion.stagesFor r.observation.kind).foldl
      (Stage.after g keepMinor r) s = s') :
    s'.get (activityKey r.object r.metadata.uid (g.partitionOf r.observation.time)) =
        .ok (activityWith g os r.observation) ∧
      ∀ k : Key .activity, k.render ≠ (activityKey r.object r.metadata.uid
        (g.partitionOf r.observation.time)).render → s'.get k = s.get k := by
  subst hs'
  have hset := hs.set_activity h hm keepMinor
  have hagree := (Agree.of_set (h.set_observation g keepMinor _) (by decide)).trans
    (agree_foldl_stagesFor h.not_event (.inl rfl) g keepMinor s)
  constructor
  · rw [← hagree.get_eq]
    exact get_of_set hset (representable_activityWith fun p hp => (h.timely p hp).fits_seconds)
  · intro k hk
    rw [← hagree.get_eq]
    exact get_congr (by rw [get?_set hset, if_neg hk])

/-- **What is known of a run** (`Noted`) is known after its next observation. -/
theorem Noted.after (hs : Noted g r.object r.metadata.uid os s)
    (h : ObjectRun r.object r.metadata.uid (os ++ [r.observation]))
    (hm : Metadata.ofPayload r.observation.payload = .ok r.metadata) (keepMinor : Bool)
    {s' : Store} (hs' : (Ingestion.stagesFor r.observation.kind).foldl
      (Stage.after g keepMinor r) s = s') :
    Noted g r.object r.metadata.uid (os ++ [r.observation]) s' := by
  obtain ⟨hown, hother⟩ := hs.get_after h hm keepMinor hs'
  subst hs'
  have htimely := h.timely r.observation (by simp)
  have hordinary := h.ordinary (o := r.observation) (by simp)
  have hset := h.set_observation g keepMinor (Stage.activity.after g keepMinor r s)
  have hbefore : Agree .watch s (Stage.activity.after g keepMinor r s) :=
    Stage.agree_after (by decide)
  have hafter := agree_foldl_stagesFor h.not_event (.inr rfl) g keepMinor s
  -- The last three parts look at one table each, which only one of the stages has changed.
  refine ⟨?_, fun o ho => ?_, fun key row k hrow hk => ?_, fun p hp => ?_⟩
  · exact List.foldlRecOn _ _ hs.filled fun s hs stage _ =>
      hs.after stage h.not_event trivial ⟨hordinary.first, hordinary.seconds_lt⟩
  · rw [List.getLast?_concat] at ho
    cases ho
    obtain ⟨rest, hrest⟩ := exists_stem_append (Key.parse_observation (g := g) h.searchable htimely)
    rw [← hafter _ rest hrest, get?_set hset, if_pos rfl]
  · obtain ⟨rest, hrest⟩ := exists_stem_append hk.parse
    rw [← hafter key rest hrest, get?_set hset] at hrow
    split at hrow
    · next hkey => exact ⟨r.observation, by simp, hkey⟩
    · rw [← hbefore key rest hrest] at hrow
      obtain ⟨o, ho, hkey⟩ := hs.sighted key row k hrow hk
      exact ⟨o, List.mem_append_left _ ho, hkey⟩
  · rw [activityWithin?_concat]
    split
    · next hsame =>
      subst hsame
      exact find?_of_get hown
    · next hne =>
      have hget := hother (activityKey r.object r.metadata.uid p) fun hrender =>
        hne (h.partition_eq_of_render_eq hp (slash_notMem_idAt _) hrender).symm
      rw [← hs.activity p hp]
      unfold find?
      rw [hget]

end

/-! ## Runs -/

theorem noted_empty {g : Granularity} {x : ObjectName} {uid : String} (h : ObjectRun x uid []) :
    Noted g x uid [] .empty := by
  refine ⟨filled_empty g _, fun o ho => ?_, fun key row k hrow => ?_, fun p hp => ?_⟩
  · cases ho
  · cases hrow
  · exact find?_eq_ok.mpr ⟨⟨_, h.parse_activityKey hp⟩, .inl ⟨rfl, rfl⟩⟩

theorem ingested_concat {g : Granularity} {keepMinor : Bool} {os : List Observation}
    {o : Observation} {r : Intake} (hr : Intake.ofObservation o = .ok r) :
    (Ingestion.stagesFor r.observation.kind).foldl (Stage.after g keepMinor r)
      (ingested g keepMinor os) = ingested g keepMinor (os ++ [o]) := by
  unfold ingested
  rw [Ingestion.processAll_concat, Ingestion.store_process, hr, Intake.observation_ofObservation hr]

theorem noted_ingested {g : Granularity} (keepMinor : Bool) {x : ObjectName} {uid : String}
    {os : List Observation} (h : ObjectRun x uid os) :
    Noted g x uid os (ingested g keepMinor os) := by
  induction os using List.reverseRecOn with
  | nil => exact noted_empty h
  | append_singleton os o ih =>
    obtain ⟨r, hr, rfl, hm, rfl, rfl⟩ := h.exists_intake (o := o) (by simp)
    exact (ih h.left).after h hm keepMinor (ingested_concat hr)

/-- **Every observation is noted once**: its second is added to one list of the row of its
partition, which depends on whether its version differs from the one before, and to no other row. So
each row tells the observations of its partition in the order in which they came, split that way. -/
theorem ingested_notes_activity (g : Granularity) (keepMinor : Bool) {x : ObjectName}
    {uid : String} {os : List Observation} (h : ObjectRun x uid os) :
    (∀ before o after, os = before ++ o :: after → ∃ a,
      (ingested g keepMinor before).getOrInitial (activityKey x uid (g.partitionOf o.time)) =
        .ok a ∧
      (ingested g keepMinor (before ++ [o])).get (activityKey x uid (g.partitionOf o.time)) =
        .ok (a.record (o.differsFrom before.getLast?) o.time.seconds) ∧
      ∀ k : Key .activity, k.render ≠ (activityKey x uid (g.partitionOf o.time)).render →
        (ingested g keepMinor (before ++ [o])).get k = (ingested g keepMinor before).get k) ∧
    ∀ p, '/' ∉ p.toList →
      (ingested g keepMinor os).find? (activityKey x uid p) = .ok (activityWithin? g p os) := by
  refine ⟨fun before o after hos => ?_, (noted_ingested keepMinor h).activity⟩
  have hrun : ObjectRun x uid (before ++ [o]) := by
    rw [hos, List.append_cons] at h
    exact h.left
  obtain ⟨r, hr, rfl, hm, rfl, rfl⟩ := hrun.exists_intake (o := o) (by simp)
  have hbefore := noted_ingested (g := g) keepMinor hrun.left
  obtain ⟨hown, hother⟩ := hbefore.get_after hrun hm keepMinor (ingested_concat hr)
  have hpartition : '/' ∉ (g.partitionOf r.observation.time).toList := slash_notMem_idAt _
  exact ⟨_, getOrInitial_eq_ok.mpr ⟨_, hbefore.activity _ hpartition, rfl⟩, hown, hother⟩

/-- A pod observed twice in one hour, and in a new version three hours later. -/
def threeHours : List Observation :=
  [podNamed "web" 1546300800 "1", podNamed "web" 1546301400 "1", podNamed "web" 1546311600 "2"]

/-- Of `threeHours` the change is noted in the third hour, the other observations in the first one,
and nothing in between. -/
theorem ingested_notes_threeHours :
    ObjectRun ⟨"Pod", "ns", "web"⟩ "u" threeHours ∧
      (ingested .hour false threeHours).find?
        (activityKey ⟨"Pod", "ns", "web"⟩ "u" "001546300800") =
          .ok (some ⟨[], [1546300800, 1546301400]⟩) ∧
      (ingested .hour false threeHours).find?
        (activityKey ⟨"Pod", "ns", "web"⟩ "u" "001546304400") = .ok none ∧
      (ingested .hour false threeHours).find?
        (activityKey ⟨"Pod", "ns", "web"⟩ "u" "001546311600") =
          .ok (some ⟨[1546311600], []⟩) := by
  have htold : ∀ o ∈ threeHours, ((Metadata.ofPayload o.payload).toOption.map fun m =>
      ((⟨o.kind, m.ns, m.name⟩ : ObjectName), m.uid)) =
        some (⟨"Pod", "ns", "web"⟩, "u") := by decide +kernel
  have htimely : ∀ o ∈ threeHours, 1000000000 ≤ o.time.seconds ∧
      o.time.totalNanos ≤ Decimal.greatest ∧ o.time.nanos < billion := by decide +kernel
  have hrun : ObjectRun ⟨"Pod", "ns", "web"⟩ "u" threeHours := by
    refine ⟨by decide, by decide, ⟨by decide, by decide, by decide, by decide⟩, by decide,
      by decide, fun o ho => ?_, fun o ho => ?_, by decide +kernel⟩
    · obtain ⟨m, hm, hnames⟩ := Option.map_eq_some_iff.mp (htold o ho)
      exact ⟨m, eq_ok_of_toOption hm, (Prod.mk.inj hnames).1, (Prod.mk.inj hnames).2⟩
    · obtain ⟨hfirst, hlast, hregular⟩ := htimely o ho
      exact ⟨hfirst, hlast, hregular⟩
  have hrows := (ingested_notes_activity .hour false hrun).2
  refine ⟨hrun, ?_, ?_, ?_⟩
  · rw [hrows _ (by decide)]
    decide +kernel
  · rw [hrows _ (by decide)]
    decide +kernel
  · rw [hrows _ (by decide)]
    decide +kernel

end WatchHistory
