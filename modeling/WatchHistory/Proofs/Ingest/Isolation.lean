import WatchHistory.Proofs.Ingest.Maintainable
import WatchHistory.Proofs.Ingest.Previous
import WatchHistory.Proofs.Store.Restriction

/-!
# Objects are kept apart

What an observation leaves of the rows of its object depends on these rows only, and it leaves the
rows of all other objects alone. So the rows of an object are the same whether or not other objects
are observed in between (`ingested_only`).

* `Stage.after_only`: a stage that does not count events commutes with the restriction to the object
  of the observation, as each of the steps that it is made of does.
* `Stage.only_after_of_ne`: it makes no difference to other objects.
-/

set_option autoImplicit false

namespace WatchHistory

open WatchHistory.Partition Store

/-- The object that an observation is of, if its payload can be read. -/
def Observation.object? (o : Observation) : Option ObjectName :=
  (Metadata.ofPayload o.payload).toOption.map fun m => ⟨o.kind, m.ns, m.name⟩

theorem Observation.kind_of_object? {o : Observation} {x : ObjectName} (h : o.object? = some x) :
    x.kind = o.kind := by
  obtain ⟨m, -, rfl⟩ := Option.map_eq_some_iff.mp h
  rfl

/-- Whether an observation is no event, was made at a time of 64 bits from the epoch on, and is of
an object with a name and no slashes. -/
structure Observation.Ordinary (o : Observation) : Prop where
  not_event : o.kind ≠ Payload.eventKind
  first : 0 ≤ o.time.seconds
  last : o.time.totalNanos ≤ Decimal.greatest
  searchable : ∀ x, o.object? = some x → Searchable x.kind x.ns x.name

theorem Instant.seconds_lt_of_totalNanos_le {t : Instant} (h : t.totalNanos ≤ Decimal.greatest) :
    t.seconds < 253402300800 := by
  unfold Instant.totalNanos Decimal.greatest at h
  omega

theorem Observation.Ordinary.seconds_lt {o : Observation} (h : o.Ordinary) :
    o.time.seconds < 253402300800 :=
  Instant.seconds_lt_of_totalNanos_le h.last

/-! ## Objects whose observations are taken for others -/

/-- Whether no field of an object's name holds a slash. -/
structure ObjectName.Unslashed (x : ObjectName) : Prop where
  slash_kind : '/' ∉ x.kind.toList
  slash_ns : '/' ∉ x.ns.toList
  slash_name : '/' ∉ x.name.toList

/-- Whether the observations of an object are among those that are looked for as another one's:
fields that are empty, with empty ones only behind them, stand for any. -/
def ObjectName.Covers (x y : ObjectName) : Prop :=
  (x.kind ≠ "" ∨ x.ns ≠ "" ∨ x.name ≠ "" → y.kind = x.kind) ∧
    (x.ns ≠ "" ∨ x.name ≠ "" → y.ns = x.ns) ∧ (x.name ≠ "" → y.name = x.name)

namespace ObjectName

variable {x y : ObjectName}

theorem covers_object_iff {k : Key .watch} :
    x.Covers k.object ↔ (Key.comparator .watch x.kind x.ns x.name none).Agrees k := by
  unfold Covers Key.Agrees
  simp [Key.object, Key.comparator, Table.noLast]

theorem covers_self (x : ObjectName) : x.Covers x :=
  ⟨fun _ => rfl, fun _ => rfl, fun _ => rfl⟩

theorem covers_iff_eq (h : x.name ≠ "") : x.Covers y ↔ y = x := by
  constructor
  · rintro ⟨hkind, hns, hname⟩
    cases x
    cases y
    rw [ObjectName.mk.injEq]
    exact ⟨hkind (.inr (.inr h)), hns (.inr h), hname h⟩
  · rintro rfl
    exact covers_self _

/-- The objects whose observations can be searched for are those with a name and no slashes. -/
theorem searchable_iff : Searchable x.kind x.ns x.name ↔ x.Unslashed ∧ x.name ≠ "" := by
  constructor
  · refine fun h => ⟨⟨h.slash_kind, h.slash_ns, h.slash_name⟩, fun hempty => h.named ?_⟩
    rw [hempty]
    rfl
  · rintro ⟨hslash, hname⟩
    exact ⟨hslash.slash_kind, hslash.slash_ns, hslash.slash_name,
      fun hnil => hname (String.toList_injective hnil)⟩

theorem Unslashed.comparable (h : x.Unslashed) :
    (Key.comparator .watch x.kind x.ns x.name none).Comparable := by
  refine ⟨h.slash_kind, h.slash_ns, h.slash_name, ?_, ?_⟩
  · simp [Key.comparator, Key.lastText]
  · intro time htime
    cases htime

end ObjectName

namespace Intake

/-- The object that is observed. -/
def object (r : Intake) : ObjectName := ⟨r.observation.kind, r.metadata.ns, r.metadata.name⟩

theorem object?_of_ofObservation {r : Intake} {o : Observation} (h : ofObservation o = .ok r) :
    o.object? = some r.object := by
  have hmetadata := ofPayload_of_ofObservation h
  obtain rfl := observation_ofObservation h
  rw [Observation.object?, hmetadata]
  rfl

variable {g : Granularity} {keepMinor : Bool} {admits : String → Prop} {r : Intake} {s : Store}

theorem slash_notMem_key (r : Intake) (g : Granularity) {t : Table} (last : t.Last) :
    '/' ∉ (r.key g t last).partition.toList :=
  slash_notMem_idAt (g.floor r.observation.time.seconds)

/-! ## Steps -/

theorem previous?_only (hs : s.Filled g admits)
    (hsearch : Searchable r.observation.kind r.metadata.ns r.metadata.name) :
    r.previous? g (s.only r.object) = r.previous? g s := by
  obtain ⟨hslash, hnamed⟩ := (ObjectName.searchable_iff (x := r.object)).mp hsearch
  have hcomparable : (Key.comparator .watch r.observation.kind r.metadata.ns r.metadata.name
      none).Comparable := hslash.comparable
  -- The keys that agree with the object are its own.
  have hown : ∀ k, (Key.comparator .watch r.observation.kind r.metadata.ns r.metadata.name
      none).Agrees k → k.object = r.object := fun k hk =>
    (ObjectName.covers_iff_eq hnamed).mp (ObjectName.covers_object_iff.mpr hk)
  have hpartition : (Key.observations g r.observation.time r.observation.kind r.metadata.ns
      r.metadata.name).partition = idAt (g.floor r.observation.time.seconds) := rfl
  have hsame := previousKey_only (x := r.object) hs hcomparable hpartition hown
  unfold previous?
  dsimp only
  rw [hsame]
  rcases previousKey_cases hs hcomparable hpartition with ⟨found, heq, hlast⟩ | ⟨heq, -⟩
  · -- The key that is found is one of the object, so both stores have its row.
    obtain ⟨text, row, -, hk, ⟨hagrees, -⟩, -⟩ := hlast
    have hobject := hown found hagrees
    obtain ⟨_, -, -, hp, -⟩ := Key.exists_slashed_of_parse hk
    have hfound : Searchable found.kind found.ns found.name :=
      (ObjectName.searchable_iff (x := found.object)).mpr (hobject ▸ ⟨hslash, hnamed⟩)
    rw [heq]
    dsimp only
    rw [← hobject, get_only hfound hp]
  · rw [heq]

theorem isNew_only (hs : s.Filled g admits)
    (hsearch : Searchable r.observation.kind r.metadata.ns r.metadata.name) :
    r.isNew g keepMinor (s.only r.object) = r.isNew g keepMinor s := by
  unfold isNew
  rw [previous?_only hs hsearch]

section

variable (hsearch : Searchable r.observation.kind r.metadata.ns r.metadata.name)

include hsearch

theorem find?_key_only {t : Table} (last : t.Last) :
    (s.only r.object).find? (r.key g t last) = s.find? (r.key g t last) :=
  find?_only hsearch (r.slash_notMem_key g last)

theorem fromStore_set_only {t : Table} (last : t.Last) (row : t.Row) :
    fromStore ((s.only r.object).set (r.key g t last) row) =
      (fromStore (s.set (r.key g t last) row)).map (Store.only r.object) := by
  have hset : (s.only r.object).set (r.key g t last) row =
      (s.set (r.key g t last) row).map (Store.only r.object) :=
    set_only hsearch (r.slash_notMem_key g last) row
  rw [hset]
  cases s.set (r.key g t last) row <;> rfl

theorem noteActivity_only (hs : s.Filled g admits) :
    r.noteActivity g (s.only r.object) = (r.noteActivity g s).map (Store.only r.object) := by
  unfold noteActivity getOrInitial
  split
  · rfl
  · simp only [map_bind, previous?_only hs hsearch, find?_key_only hsearch,
      fromStore_set_only hsearch]

theorem keep_only (hs : s.Filled g admits) :
    r.keep g keepMinor (s.only r.object) =
      (r.keep g keepMinor s).map fun found => (found.1.only r.object, found.2) := by
  unfold keep
  rw [isNew_only hs hsearch, map_bind]
  congr 1
  funext kept
  cases kept with
  | false => rfl
  | true =>
    simp only [if_true, fromStore_set_only hsearch, map_bind]
    cases fromStore (s.set (r.key g .watch (some r.observation.time)) r.observation) <;> rfl

theorem summarize_only :
    r.summarize g (s.only r.object) = (r.summarize g s).map (Store.only r.object) := by
  unfold summarize
  split
  · rfl
  · simp only [map_bind, find?_key_only hsearch, fromStore_set_only hsearch]

theorem relate_only :
    r.relate g (s.only r.object) = (r.relate g s).map (Store.only r.object) := by
  unfold relate
  split
  · rfl
  · simp only [map_bind, find?_key_only hsearch, fromStore_set_only hsearch]

end

end Intake

/-! ## Stages -/

namespace Stage

variable {g : Granularity} {keepMinor : Bool} {admits : String → Prop} {r : Intake} {s : Store}

/-- What a stage leaves of the rows of the observed object depends on these only. -/
theorem after_only (hs : s.Filled g admits)
    (hsearch : Searchable r.observation.kind r.metadata.ns r.metadata.name)
    (hkind : r.observation.kind ≠ Payload.eventKind) (stage : Stage) :
    stage.after g keepMinor r (s.only r.object) = (stage.after g keepMinor r s).only r.object := by
  cases stage with
  | eventCount => rw [after_eventCount_of_ne hkind, after_eventCount_of_ne hkind]
  | activity =>
    simp only [after, run, Intake.noteActivity_only hsearch hs]
    cases r.noteActivity g s <;> rfl
  | watch =>
    simp only [after, run, Intake.keep_only hsearch hs]
    cases r.keep g keepMinor s <;> rfl
  | summary =>
    simp only [after, run, Intake.summarize_only hsearch]
    cases r.summarize g s <;> rfl
  | relation =>
    simp only [after, run, Intake.relate_only hsearch]
    cases r.relate g s <;> rfl

theorem only_after_of_ne {x : ObjectName}
    (hsearch : Searchable r.observation.kind r.metadata.ns r.metadata.name)
    (hkind : r.observation.kind ≠ Payload.eventKind) (hne : r.object ≠ x) (stage : Stage) :
    (stage.after g keepMinor r s).only x = s.only x := by
  by_cases hstage : stage = .eventCount
  · rw [hstage, after_eventCount_of_ne hkind]
  · rcases after_cases g keepMinor r s hstage with
      hsame | ⟨-, hset⟩ | ⟨t, last, row, -, -, -, hset⟩
    · rw [hsame]
    · exact only_set_of_ne hsearch (r.slash_notMem_key g _) hne hset
    · exact only_set_of_ne hsearch (r.slash_notMem_key g _) hne hset

theorem foldl_after_only (hs : s.Filled g admits)
    (hsearch : Searchable r.observation.kind r.metadata.ns r.metadata.name)
    (hkind : r.observation.kind ≠ Payload.eventKind) (hadmitted : admits r.observation.kind)
    (htime : 0 ≤ r.observation.time.seconds ∧ r.observation.time.seconds < 253402300800)
    (stages : List Stage) :
    stages.foldl (after g keepMinor r) (s.only r.object) =
      (stages.foldl (after g keepMinor r) s).only r.object := by
  induction stages generalizing s with
  | nil => rfl
  | cons stage stages ih =>
    rw [List.foldl_cons, List.foldl_cons, after_only hs hsearch hkind,
      ih (hs.after stage hkind hadmitted htime)]

theorem only_foldl_after_of_ne {x : ObjectName}
    (hsearch : Searchable r.observation.kind r.metadata.ns r.metadata.name)
    (hkind : r.observation.kind ≠ Payload.eventKind) (hne : r.object ≠ x) (stages : List Stage) :
    (stages.foldl (after g keepMinor r) s).only x = s.only x := by
  induction stages generalizing s with
  | nil => rfl
  | cons stage stages ih => rw [List.foldl_cons, ih, only_after_of_ne hsearch hkind hne]

end Stage

/-! ## Observations -/

section

variable {g : Granularity} {keepMinor : Bool} {i j : Ingestion} {o : Observation} {x : ObjectName}

theorem Observation.Ordinary.filled_process (ho : o.Ordinary)
    (hs : i.store.Filled g fun _ => True) :
    (Ingestion.process g keepMinor i o).store.Filled g fun _ => True := by
  refine Ingestion.process_induction (fun r stage s hr hs => ?_) hs
  subst hr
  exact hs.after stage ho.not_event trivial ⟨ho.first, ho.seconds_lt⟩

/-- An observation does to the rows of its object what it does where there are no other rows, and
nothing to those of another object. -/
theorem Observation.Ordinary.only_process (ho : o.Ordinary)
    (hs : i.store.Filled g fun _ => True) (h : i.store.only x = j.store) (keepMinor : Bool) :
    (Ingestion.process g keepMinor i o).store.only x =
      if o.object? = some x then (Ingestion.process g keepMinor j o).store else j.store := by
  rw [Ingestion.store_process, Ingestion.store_process, ← h]
  cases hread : Intake.ofObservation o with
  | error e => simp
  | ok r =>
    have hobject := Intake.object?_of_ofObservation hread
    have hsearch := ho.searchable _ hobject
    obtain rfl := Intake.observation_ofObservation hread
    dsimp only
    rw [hobject]
    by_cases hx : r.object = x
    · subst hx
      rw [if_pos rfl]
      exact
        (Stage.foldl_after_only hs hsearch ho.not_event trivial ⟨ho.first, ho.seconds_lt⟩ _).symm
    · rw [if_neg fun hsame => hx (Option.some.inj hsame)]
      exact Stage.only_foldl_after_of_ne hsearch ho.not_event hx _

/-- A run leaves of the rows of an object what a run over the object's own observations leaves. -/
theorem only_processAll {os : List Observation} (hos : ∀ o ∈ os, o.Ordinary)
    (hs : i.store.Filled g fun _ => True) (h : i.store.only x = j.store) :
    (Ingestion.processAll g keepMinor i os).store.only x =
      (Ingestion.processAll g keepMinor j (os.filter fun o => o.object? = some x)).store := by
  -- Both runs go on together; the second one skips the observations of other objects.
  induction os generalizing i j with
  | nil => exact h
  | cons o os ih =>
    have ho := hos o List.mem_cons_self
    have hstep := ho.only_process hs h keepMinor
    have hrest := fun (j : Ingestion) => ih (i := Ingestion.process g keepMinor i o) (j := j)
      (fun o' ho' => hos o' (List.mem_cons_of_mem _ ho')) (ho.filled_process hs)
    by_cases hx : o.object? = some x
    · rw [if_pos hx] at hstep
      rw [List.filter_cons_of_pos (by simpa using hx)]
      exact hrest _ hstep
    · rw [if_neg hx] at hstep
      rw [List.filter_cons_of_neg (by simpa using hx)]
      exact hrest _ hstep

end

/-- **Objects are kept apart.** Whatever else is observed in between, the rows of an object are
those that its own observations leave when nothing else is observed. -/
theorem ingested_only (g : Granularity) (keepMinor : Bool) {os : List Observation}
    (h : ∀ o ∈ os, o.Ordinary) (x : ObjectName) :
    (ingested g keepMinor os).only x =
      ingested g keepMinor (os.filter fun o => o.object? = some x) :=
  only_processAll h (filled_empty g _) (only_empty x)

/-- A pod of some name, at a second and in a version. -/
def podNamed (name : String) (second : Int) (version : String) : Observation :=
  ⟨startAt second, "Pod", .update, "\x7b\"metadata\":\x7b\"name\":\"" ++ name ++
    "\",\"namespace\":\"ns\",\"uid\":\"u\",\"resourceVersion\":\"" ++ version ++ "\"\x7d\x7d"⟩

/-- Two pods in one hour, of which the name of the first continues that of the second. -/
def siblings : List Observation := [podNamed "web-2" 1546300800 "1", podNamed "web" 1546301400 "2"]

/-- The first observation of the second pod of `siblings` is not taken for a change of the first
one. -/
theorem ingested_only_siblings :
    (∀ o ∈ siblings, o.Ordinary) ∧
      (ingested .hour false siblings).only ⟨"Pod", "ns", "web"⟩ =
        ingested .hour false [podNamed "web" 1546301400 "2"] ∧
      (ingested .hour false siblings).get? "/watchactivity/001546300800/Pod/ns/web/u" =
        some "\x7b\"changed_at\":[],\"no_change_at\":[1546301400]\x7d" := by
  have hordinary : ∀ o ∈ siblings, o.Ordinary := by
    have hobject : ∀ o ∈ siblings, o.object? = some ⟨"Pod", "ns", "web"⟩ ∨
        o.object? = some ⟨"Pod", "ns", "web-2"⟩ := by decide +kernel
    have htime : ∀ o ∈ siblings, o.kind ≠ Payload.eventKind ∧ 0 ≤ o.time.seconds ∧
        o.time.totalNanos ≤ Decimal.greatest := by decide +kernel
    intro o ho
    obtain ⟨hkind, hfirst, hlast⟩ := htime o ho
    refine ⟨hkind, hfirst, hlast, fun x hx => ?_⟩
    rcases hobject o ho with hname | hname <;> rw [hname] at hx <;> cases hx <;>
      exact ⟨by decide, by decide, by decide, by decide⟩
  have hfilter : (siblings.filter fun o => o.object? = some ⟨"Pod", "ns", "web"⟩) =
      [podNamed "web" 1546301400 "2"] := by decide +kernel
  have honly := ingested_only .hour false hordinary ⟨"Pod", "ns", "web"⟩
  rw [hfilter] at honly
  have hkey : objectOf? "/watchactivity/001546300800/Pod/ns/web/u" =
      some ⟨"Pod", "ns", "web"⟩ := by decide +kernel
  have hrow := get?_only ⟨"Pod", "ns", "web"⟩ (ingested .hour false siblings)
    "/watchactivity/001546300800/Pod/ns/web/u"
  rw [if_pos hkey, honly] at hrow
  refine ⟨hordinary, honly, ?_⟩
  rw [← hrow]
  decide +kernel

end WatchHistory
