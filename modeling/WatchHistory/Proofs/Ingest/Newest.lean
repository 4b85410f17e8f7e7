import WatchHistory.Proofs.Ingest.Kept

/-!
# The observation that is found

The search for the observation before another one looks through the text of keys. In a history of
the years from 1970 on, which is filled row by row (`filled_ingested`), it comes across what is
stored of the object up to the partition of the next observation (`Intake.Sees`). Of an object
without a name it also comes across others (`ObjectName.Covers`).

* `Intake.previous?_cases`: the observation with the greatest key of these is found, if there is
  one.
* `Intake.LastSeen.previous?_eq_iff`: when this is the latest one of the object.
* `previous?_ingested` puts them together. Nanoseconds of fewer digits may come behind those of a
  later time (`previous?_eighteenDigits`).
-/

set_option autoImplicit false

namespace WatchHistory

open WatchHistory.Partition Store

/-! ## Histories that are filled -/

/-- Whether an observation was made from the epoch on, at a time of 64 bits of nanoseconds. -/
structure Observation.Dated (o : Observation) : Prop where
  first : 0 ≤ o.time.seconds
  last : o.time.totalNanos ≤ Decimal.greatest

theorem Instant.Timely.dated {o : Observation} (h : o.time.Timely) : o.Dated :=
  ⟨Int.le_trans (by decide) h.first, h.last⟩

namespace Store.Filled

variable {g : Granularity} {keepMinor : Bool} {s s' : Store} {r : Intake} {admits : String → Prop}

theorem start_lt (h : s.Filled g admits) {t : Table} {second : Int}
    (hp : s.Holds t (idAt second)) (hrange : InRange second) : second < 253402300800 := by
  obtain ⟨key, row, hrow, k, hk, hid⟩ := hp
  obtain ⟨u, time, kind, ns, name, last, -, htime, -, -, rfl, ⟨k', hk'⟩, -⟩ := h key row hrow
  have hk' := parseKey_eq_ok.mp hk'
  obtain rfl := Key.table_eq_of_parse hk' hk
  have hpartition := Key.partition_of_parse_within hk
  have hfloor := g.floor_le time.seconds
  have hfloor' := g.inRange_floor (s := time.seconds) ⟨htime.1, by unfold idLimit; omega⟩
  have hsame : second = g.floor time.seconds :=
    idAt_injective hrange hfloor' (hid.symm.trans hpartition)
  omega

theorem foldlM_addBuckets {reason : String} {groups : List (String × List (Int × Int))}
    (h : s.Filled g fun _ => True) (hgroups : ∀ group ∈ groups, ∃ second, group.1 = idAt second ∧
      InRange second ∧ g.seconds ∣ second ∧ second < 253402300800)
    (hfold : groups.foldlM (fun s group => r.addBuckets reason group.1 group.2 s) s = .ok s') :
    s'.Filled g fun _ => True := by
  induction groups generalizing s with
  | nil =>
    cases hfold
    exact h
  | cons group groups ih =>
    rw [List.foldlM_cons] at hfold
    obtain ⟨s₁, hadd, hfold⟩ := bind_eq_ok.mp hfold
    obtain ⟨minutes, -, hset⟩ := Intake.addBuckets_eq_ok.mp hadd
    obtain ⟨second, hp, hrange, hdvd, hlast⟩ := hgroups group List.mem_cons_self
    have hkey : r.tallyKey group.1 = Key.within g .eventCount (startAt second) r.involved.kind
        r.involved.ns r.involved.name r.involved.uid := by
      unfold Intake.tallyKey Key.within
      rw [hp, Granularity.partitionOf, seconds_startAt hrange, g.floor_of_dvd hdvd]
    have htells : Table.eventCount.Tells (startAt second) r.involved.uid := trivial
    have htime : 0 ≤ (startAt second).seconds ∧ (startAt second).seconds < 253402300800 := by
      rw [seconds_startAt hrange]
      exact ⟨hrange.1, hlast⟩
    exact ih (h.set htime htells trivial (hkey ▸ hset))
      (fun group' hgroup' => hgroups group' (List.mem_cons_of_mem _ hgroup')) hfold

theorem after_eventCount (h : s.Filled g fun _ => True) (keepMinor : Bool) (r : Intake) :
    (Stage.eventCount.after g keepMinor r s).Filled g fun _ => True := by
  rcases Stage.after_eventCount_cases g keepMinor r s with
    hsame | ⟨reason, d, lastMinute, -, hcounted, hfold⟩
  · rw [hsame]
    exact h
  · obtain ⟨current, previous, ⟨min, max⟩, -, -, hbounds, hclip⟩ :=
      Intake.counted?_eq_some hcounted
    obtain ⟨⟨t, hmin⟩, ⟨u, hmax⟩, hall⟩ := spans_of_bounds h.keyed hbounds
    obtain ⟨oldest, rfl, -, hod, -⟩ := h.grid hmin
    obtain ⟨newest, rfl, hn, hnd, -⟩ := h.grid hmax
    have hlt := h.start_lt hmax hn
    refine h.foldlM_addBuckets (fun ⟨p, buckets⟩ hgroup => ?_) hfold
    obtain ⟨second, hp, hrange, hdvd, -, hle⟩ :=
      Intake.mem_entries_groups_clip hod hnd (hall _ ⟨u, hmax⟩).1 hclip hgroup
    exact ⟨second, hp, hrange, hdvd, by omega⟩

end Store.Filled

theorem filled_ingested (g : Granularity) (keepMinor : Bool) {os : List Observation}
    (h : ∀ o ∈ os, o.Dated) : (ingested g keepMinor os).Filled g fun _ => True := by
  refine Ingestion.processAll_induction (P := fun s => s.Filled g fun _ => True)
    (fun o ho i hi => ?_) (filled_empty g _)
  refine Ingestion.process_induction (P := fun s => s.Filled g fun _ => True)
    (fun r stage s hr hs => ?_) hi
  subst hr
  by_cases hstage : stage = .eventCount
  · subst hstage
    exact hs.after_eventCount keepMinor r
  · exact hs.after_of_ne hstage trivial
      ⟨(h _ ho).first, Instant.seconds_lt_of_totalNanos_le (h _ ho).last⟩

/-! ## What is found -/

theorem ObjectName.Unslashed.exists_fault {x : ObjectName} (h : x.Unslashed) (g : Granularity)
    (time : Instant) : ∃ fault,
      Key.parse .watch (Key.observations g time x.kind x.ns x.name).render = .error fault :=
  exists_fault_stemOf h.slash_kind h.slash_ns h.slash_name g time

section

variable {g : Granularity} {s : Store} {x y : ObjectName} {p : Observation} {r : Intake}
  {admits : String → Prop} {P : Observation → Prop}

theorem Store.Keeps.exists_parse (h : s.Keeps g x p) (hs : s.Filled g admits) :
    ∃ k, Key.parse .watch (Key.observation g x.kind x.ns x.name p.time).render = .ok k := by
  obtain ⟨t, k, second, hgridded⟩ := hs.exists_gridded h.row
  obtain ⟨rest, hrest⟩ := exists_stem_append_retarget
    (ranked_idAt (g.floor p.time.seconds)).1 (Key.observation g x.kind x.ns x.name p.time)
  have hfiled : Filed t (idAt second) (Key.observation g x.kind x.ns x.name p.time).render :=
    ⟨k, hgridded.spells.parse, hgridded.partition⟩
  obtain rfl := hfiled.table_eq hrest
  exact ⟨k, hgridded.spells.parse⟩

/-- Whether an observation of an object is stored that the search for the one before `r` comes
across. -/
structure Intake.Sees (r : Intake) (g : Granularity) (s : Store) (y : ObjectName)
    (p : Observation) : Prop where
  covers : r.object.Covers y
  kept : s.Keeps g y p
  not_after : ¬ g.partitionOf r.observation.time < g.partitionOf p.time

/-- `previous?` finds the observation with the greatest key of those that it `Sees`, or none if it
sees none. -/
theorem Intake.previous?_cases (hs : s.Filled g admits) (hrecords : s.Records g P)
    (hslash : r.object.Unslashed) :
    (∃ y p, r.Sees g s y p ∧ (∀ z q, r.Sees g s z q →
      ¬ (Key.observation g y.kind y.ns y.name p.time).render <
        (Key.observation g z.kind z.ns z.name q.time).render) ∧
      r.previous? g s = .ok (some p)) ∨
    ((∀ y p, ¬ r.Sees g s y p) ∧ r.previous? g s = .ok none) := by
  have hcomparable := hslash.comparable
  obtain ⟨fault, hfault⟩ := hslash.exists_fault g r.observation.time
  have hpartition : (Key.observations g r.observation.time r.object.kind r.object.ns
      r.object.name).partition = idAt (g.floor r.observation.time.seconds) := rfl
  obtain ⟨hfound, hnone⟩ := previousKey_iff (g := g) hs hcomparable hpartition
    fun text row k hrow hk => searched_iff_not_lt hs hcomparable hpartition hfault rfl hrow hk
  -- What is seen has a key that is searched.
  have hseen : ∀ z q, r.Sees g s z q → ∃ k, Key.parse .watch
      (Key.observation g z.kind z.ns z.name q.time).render = .ok k ∧
        ¬ g.partitionOf r.observation.time < k.partition ∧
        (Key.comparator .watch r.object.kind r.object.ns r.object.name none).Agrees k := by
    intro z q hq
    obtain ⟨k, hk⟩ := hq.kept.exists_parse hs
    obtain ⟨-, hkind, hns, hname⟩ := Key.of_parse_observation hk
    refine ⟨k, hk, ?_, ?_⟩
    · rw [Key.partition_of_parse_within hk]
      exact hq.not_after
    · rw [← ObjectName.covers_object_iff, Key.object, hkind, hns, hname]
      exact hq.covers
  unfold previous?
  dsimp only [object] at *
  rcases previousKey_cases (g := g) hs hcomparable hpartition with ⟨found, heq, -⟩ | ⟨heq, -⟩
  · obtain ⟨text, row, hrow, hk, ⟨hnot, hagrees⟩, hgreatest⟩ := (hfound found).mp heq
    obtain ⟨y, p, -, hkept, rfl⟩ := hrecords text row found hrow hk
    obtain ⟨-, hkind, hns, hname⟩ := Key.of_parse_observation hk
    have hcovers := (ObjectName.covers_object_iff (x := r.object)).mpr hagrees
    rw [Key.object, hkind, hns, hname] at hcovers
    rw [Key.partition_of_parse_within hk] at hnot
    refine .inl ⟨y, p, ⟨hcovers, hkept, hnot⟩, fun z q hq => ?_, ?_⟩
    · obtain ⟨k, hk', hsearched⟩ := hseen z q hq
      exact hgreatest _ _ k hq.kept.row hk' hsearched
    · have hget := hkept.get_eq hk
      rw [heq]
      dsimp only
      rw [hget]
      rfl
  · refine .inr ⟨fun y p hp => ?_, ?_⟩
    · obtain ⟨k, hk, hsearched⟩ := hseen y p hp
      exact hnone.mp heq ⟨_, _, k, hp.kept.row, hk, hsearched⟩
    · rw [heq]
      rfl

theorem Store.Keeps.eq_of_render_eq {q : Observation} (h : s.Keeps g x p) (h' : s.Keeps g y q)
    (hkey : (Key.observation g x.kind x.ns x.name p.time).render =
      (Key.observation g y.kind y.ns y.name q.time).render) : p = q := by
  have hrow := h.row
  rw [hkey, h'.row] at hrow
  have hread := Table.read?_write .watch q
  rw [Option.some.inj hrow, Table.read?_write .watch p] at hread
  exact Option.some.inj hread

theorem Store.Keeps.of_records (h : s.Keeps g x p) (hs : s.Filled g admits)
    (hrecords : s.Records g P) : P p := by
  obtain ⟨k, hk⟩ := h.exists_parse hs
  obtain ⟨y, o, hP, hkept, hkey⟩ := hrecords _ _ k h.row hk
  rwa [h.eq_of_render_eq hkept hkey]

theorem Intake.previous?_eq_none_iff (hs : s.Filled g admits) (hrecords : s.Records g P)
    (hslash : r.object.Unslashed) :
    r.previous? g s = .ok none ↔ ∀ y p, ¬ r.Sees g s y p := by
  rcases previous?_cases hs hrecords hslash with ⟨y, p, hp, -, heq⟩ | ⟨hnone, heq⟩
  · rw [heq]
    refine iff_of_false (fun h => ?_) fun h => h y p hp
    cases h
  · exact iff_of_true heq hnone

theorem Intake.previous?_eq_some_iff (hs : s.Filled g admits) (hrecords : s.Records g P)
    (hslash : r.object.Unslashed) :
    r.previous? g s = .ok (some p) ↔ ∃ y, r.Sees g s y p ∧ ∀ z q, r.Sees g s z q →
      ¬ (Key.observation g y.kind y.ns y.name p.time).render <
        (Key.observation g z.kind z.ns z.name q.time).render := by
  rcases previous?_cases hs hrecords hslash with ⟨z, q, hq, hgreatest, heq⟩ | ⟨hnone, heq⟩
  · rw [heq, Except.ok.injEq, Option.some.injEq]
    constructor
    · rintro rfl
      exact ⟨z, hq, hgreatest⟩
    · rintro ⟨y, hp, hgreatest'⟩
      exact hq.kept.eq_of_render_eq hp.kept
        (StrictOrder.connex (hgreatest y p hp) (hgreatest' z q hq))
  · rw [heq]
    refine iff_of_false (fun h => ?_) fun ⟨y, hp, _⟩ => hnone y p hp
    cases h

/-! ## The latest observation -/

/-- Whether an observation is the latest one that is stored of the object of `r`, up to the
partition of `r`. -/
structure Intake.LastSeen (r : Intake) (g : Granularity) (s : Store) (p : Observation) : Prop where
  sees : r.Sees g s r.object p
  latest : ∀ q, r.Sees g s r.object q → ¬ p.time < q.time

theorem Store.Keeps.inRange (h : s.Keeps g x p) (hs : s.Filled g admits) :
    InRange (g.floor p.time.seconds) := by
  obtain ⟨k, hk⟩ := h.exists_parse hs
  obtain ⟨second, hgridded⟩ := hs.gridded h.row hk
  have hid : idAt second = idAt (g.floor p.time.seconds) :=
    hgridded.partition.symm.trans (Key.partition_of_parse_within hk)
  exact start_idAt_iff.mp ⟨_, hid ▸ start_idAt hgridded.inRange⟩

/-- For an object with a name, the latest observation is found exactly if no text of another time
comes behind that of its own in its partition. -/
theorem Intake.LastSeen.previous?_eq_iff (h : r.LastSeen g s p) (hs : s.Filled g admits)
    (hrecords : s.Records g P) (hslash : r.object.Unslashed) (hname : r.metadata.name ≠ "") :
    r.previous? g s = .ok (some p) ↔
      ∀ q, r.Sees g s r.object q → g.partitionOf q.time = g.partitionOf p.time →
        ¬ Key.instantText p.time < Key.instantText q.time := by
  have hsearch := ObjectName.searchable_iff.mpr ⟨hslash, hname⟩
  have hown : ∀ {y q}, r.Sees g s y q → y = r.object := fun hq =>
    (ObjectName.covers_iff_eq hname).mp hq.covers
  rw [previous?_eq_some_iff hs hrecords hslash]
  constructor
  · rintro ⟨y, hp, hgreatest⟩ q hq hsame
    obtain rfl := hown hp
    rw [← Key.observation_lt_iff hsearch hsame.symm]
    exact hgreatest _ q hq
  · refine fun hgreatest => ⟨_, h.sees, fun z q hq => ?_⟩
    obtain rfl := hown hq
    by_cases hsame : g.partitionOf q.time = g.partitionOf p.time
    · rw [Key.observation_lt_iff hsearch hsame.symm]
      exact hgreatest q hq hsame
    · -- In another partition it can only be an older one.
      have hfloor := g.floor_mono (Instant.seconds_le_of_le (h.latest q hq))
      have hnot : ¬ g.partitionOf p.time < g.partitionOf q.time := by
        rw [Granularity.partitionOf, Granularity.partitionOf,
          idAt_lt_idAt_iff (h.sees.kept.inRange hs) (hq.kept.inRange hs)]
        omega
      obtain ⟨k, hk⟩ := h.sees.kept.exists_parse hs
      obtain ⟨k', hk'⟩ := hq.kept.exists_parse hs
      refine hs.not_lt_of_partition_lt h.sees.kept.row hk hq.kept.row hk' ?_
      rw [Key.partition_of_parse_within hk, Key.partition_of_parse_within hk']
      exact Decidable.byContradiction fun hlt => hsame (StrictOrder.connex hlt hnot)

theorem Intake.LastSeen.not_instantText_lt (h : r.LastSeen g s p)
    (htimely : ∀ q, r.Sees g s r.object q → q.time.Timely) {q : Observation}
    (hq : r.Sees g s r.object q) : ¬ Key.instantText p.time < Key.instantText q.time := by
  rw [(htimely p h.sees).instantText_lt_iff (htimely q hq)]
  exact h.latest q hq

end

/-! ## Two observations -/

theorem lastSeen_ingested_pair (g : Granularity) (keepMinor : Bool) {r : Intake}
    {a b : Observation} (h : ∀ o ∈ [a, b], o.object? = some r.object ∧
      (o.kind ≠ Payload.eventKind ∧ o.kind ≠ Payload.nodeKind) ∧
      (Key.parse .watch (Key.observation g r.object.kind r.object.ns r.object.name
        o.time).render).toOption.isSome)
    (hdated : ∀ o ∈ [a, b], o.Dated)
    (hne : (Key.observation g r.object.kind r.object.ns r.object.name b.time).render ≠
      (Key.observation g r.object.kind r.object.ns r.object.name a.time).render)
    (hlt : a.time < b.time)
    (hpartition : ¬ g.partitionOf r.observation.time < g.partitionOf b.time) :
    (∀ o ∈ [a, b], (ingested g keepMinor [a, b]).Keeps g r.object o) ∧
      r.LastSeen g (ingested g keepMinor [a, b]) b := by
  have hkept : ∀ o ∈ [a, b], ∀ i, (Ingestion.process g keepMinor i o).store.Keeps g r.object o := by
    intro o ho i
    obtain ⟨hobject, ⟨hevent, hnode⟩, hparse⟩ := h o ho
    obtain ⟨r', hread, -, hsame⟩ := Intake.exists_of_object? hevent hobject
    obtain ⟨k, hk⟩ := Option.isSome_iff_exists.mp hparse
    rw [← hsame] at hk ⊢
    exact Ingestion.keeps_process hread hnode (eq_ok_of_toOption hk)
  have hfirst : (ingested g keepMinor [a, b]).Keeps g r.object a := by
    refine (hkept a (by simp) ⟨.empty, .zero⟩).process keepMinor fun y hy => ?_
    obtain rfl := Option.some.inj (hy.symm.trans (h b (by simp)).1)
    exact hne
  have hsecond : (ingested g keepMinor [a, b]).Keeps g r.object b := hkept b (by simp) _
  refine ⟨List.forall_mem_cons.mpr ⟨hfirst, List.forall_mem_singleton.mpr hsecond⟩,
    ⟨r.object.covers_self, hsecond, hpartition⟩, fun q hq => ?_⟩
  have hmem := hq.kept.of_records (filled_ingested g keepMinor hdated)
    (records_ingested g keepMinor [a, b])
  rcases List.mem_cons.mp hmem with rfl | hlast
  · exact Instant.le_of_lt hlt
  · obtain rfl := List.mem_singleton.mp hlast
    exact StrictOrder.irrefl _

/-! ## Histories -/

/-- **The observation that is found** in a history of the years from 1970 on, for an object without
slashes. None is found exactly if nothing is stored of an object that is looked for, up to the
partition of the next observation, and otherwise the one with the greatest key. Of an object with a
name only its own observations are looked for, and the latest one of them is found exactly if no
text of another time in its partition comes behind that of its own. Among times of nineteen digits,
which are those from September 2001 on outside leap seconds, it is always the latest one. -/
theorem previous?_ingested (g : Granularity) (keepMinor : Bool) {os : List Observation} {r : Intake}
    (hos : ∀ o ∈ os, o.Dated) (hslash : r.object.Unslashed) :
    ∃ found, r.previous? g (ingested g keepMinor os) = .ok found ∧
      (found = none ↔ ∀ y p, ¬ r.Sees g (ingested g keepMinor os) y p) ∧
      (∀ p, found = some p ↔ ∃ y, r.Sees g (ingested g keepMinor os) y p ∧
        ∀ z q, r.Sees g (ingested g keepMinor os) z q →
          ¬ (Key.observation g y.kind y.ns y.name p.time).render <
            (Key.observation g z.kind z.ns z.name q.time).render) ∧
      (r.metadata.name ≠ "" →
        (∀ y p, r.Sees g (ingested g keepMinor os) y p → y = r.object) ∧
        ∀ p, r.LastSeen g (ingested g keepMinor os) p →
          (found = some p ↔ ∀ q, r.Sees g (ingested g keepMinor os) r.object q →
            g.partitionOf q.time = g.partitionOf p.time →
              ¬ Key.instantText p.time < Key.instantText q.time) ∧
          ((∀ q, r.Sees g (ingested g keepMinor os) r.object q → q.time.Timely) →
            found = some p)) := by
  have hs := filled_ingested g keepMinor hos
  have hrecords := records_ingested g keepMinor os
  have hfound : ∃ found, r.previous? g (ingested g keepMinor os) = .ok found := by
    rcases Intake.previous?_cases hs hrecords hslash with ⟨-, p, -, -, heq⟩ | ⟨-, heq⟩
    · exact ⟨_, heq⟩
    · exact ⟨_, heq⟩
  obtain ⟨found, heq⟩ := hfound
  have hnone := Intake.previous?_eq_none_iff hs hrecords hslash
  have hsome := fun p => Intake.previous?_eq_some_iff (p := p) hs hrecords hslash
  simp only [heq, Except.ok.injEq] at hnone hsome
  refine ⟨found, heq, hnone, hsome, fun hname => ⟨fun y p hp =>
    (ObjectName.covers_iff_eq hname).mp hp.covers, fun p hp => ?_⟩⟩
  have hlatest := hp.previous?_eq_iff hs hrecords hslash hname
  simp only [heq, Except.ok.injEq] at hlatest
  exact ⟨hlatest, fun htimely => hlatest.mpr fun q hq _ => hp.not_instantText_lt htimely hq⟩

/-- A pod in the first second of 2019, and an hour later. -/
def twoHoursOfPods : List Observation :=
  [podNamed "web" 1546300800 "1", podNamed "web" 1546304400 "2"]

/-- A minute after `twoHoursOfPods` the later pod is found. -/
theorem previous?_twoHoursOfPods :
    (∀ o ∈ twoHoursOfPods, o.Dated) ∧
      ∃ r, Intake.ofObservation (podNamed "web" 1546304460 "3") = .ok r ∧ r.object.Unslashed ∧
        r.metadata.name ≠ "" ∧
        r.LastSeen .hour (ingested .hour false twoHoursOfPods) (podNamed "web" 1546304400 "2") ∧
        r.previous? .hour (ingested .hour false twoHoursOfPods) =
          .ok (some (podNamed "web" 1546304400 "2")) := by
  obtain ⟨r, hread, hobservation, hobject⟩ := Intake.exists_of_object?
    (o := podNamed "web" 1546304460 "3") (x := ⟨"Pod", "ns", "web"⟩) (by decide) (by decide +kernel)
  have hpods : ∀ o ∈ twoHoursOfPods, o.object? = some r.object ∧
      (o.kind ≠ Payload.eventKind ∧ o.kind ≠ Payload.nodeKind) ∧
      (Key.parse .watch (Key.observation .hour r.object.kind r.object.ns r.object.name
        o.time).render).toOption.isSome := by
    rw [hobject]
    decide +kernel
  have htimely : ∀ o ∈ twoHoursOfPods, o.time.Timely := by
    intro o ho
    rcases List.mem_cons.mp ho with rfl | hlast
    · exact ⟨by decide, by decide, by decide⟩
    · obtain rfl := List.mem_singleton.mp hlast
      exact ⟨by decide, by decide, by decide⟩
  have hdated : ∀ o ∈ twoHoursOfPods, o.Dated := fun o ho => (htimely o ho).dated
  have hslash : r.object.Unslashed := by
    rw [hobject]
    exact ⟨by decide, by decide, by decide⟩
  have hname : r.metadata.name ≠ "" := by
    rw [show r.metadata.name = "web" from congrArg ObjectName.name hobject]
    decide
  obtain ⟨-, hlatest⟩ := lastSeen_ingested_pair .hour false hpods hdated
    (by rw [hobject]; decide +kernel) (by decide) (by rw [hobservation]; decide +kernel)
  obtain ⟨found, heq, -, -, hnamed⟩ := previous?_ingested .hour false hdated hslash
  have hfound := ((hnamed hname).2 _ hlatest).2 fun q hq => htimely q <|
    hq.kept.of_records (filled_ingested .hour false hdated) (records_ingested .hour false _)
  exact ⟨hdated, r, hread, hslash, hname, hlatest, hfound ▸ heq⟩

/-- A pod in the last second of which the nanoseconds have eighteen digits, and in the next one. -/
def eighteenDigits : List Observation :=
  [podNamed "web" 999999999 "1", podNamed "web" 1000000000 "2"]

/-- In the second after `eighteenDigits` the earlier pod is found. -/
theorem previous?_eighteenDigits :
    (∀ o ∈ eighteenDigits, o.Dated) ∧
      ∃ r, Intake.ofObservation (podNamed "web" 1000000001 "3") = .ok r ∧
        r.LastSeen .hour (ingested .hour false eighteenDigits) (podNamed "web" 1000000000 "2") ∧
        r.previous? .hour (ingested .hour false eighteenDigits) =
          .ok (some (podNamed "web" 999999999 "1")) := by
  obtain ⟨r, hread, hobservation, hobject⟩ := Intake.exists_of_object?
    (o := podNamed "web" 1000000001 "3") (x := ⟨"Pod", "ns", "web"⟩) (by decide) (by decide +kernel)
  have hpods : ∀ o ∈ eighteenDigits, o.object? = some r.object ∧
      (o.kind ≠ Payload.eventKind ∧ o.kind ≠ Payload.nodeKind) ∧
      (Key.parse .watch (Key.observation .hour r.object.kind r.object.ns r.object.name
        o.time).render).toOption.isSome := by
    rw [hobject]
    decide +kernel
  have htime : ∀ o ∈ eighteenDigits, (0 ≤ o.time.seconds ∧ o.time.totalNanos ≤ Decimal.greatest) ∧
      ¬ Key.instantText (startAt 999999999) < Key.instantText o.time := by
    decide +kernel
  have hdated : ∀ o ∈ eighteenDigits, o.Dated := fun o ho => ⟨(htime o ho).1.1, (htime o ho).1.2⟩
  obtain ⟨hkept, hlatest⟩ := lastSeen_ingested_pair .hour false hpods hdated
    (by rw [hobject]; decide +kernel) (by decide) (by rw [hobservation]; decide +kernel)
  have hfirst := hkept (podNamed "web" 999999999 "1") (by simp)
  obtain ⟨k, hk⟩ := hfirst.exists_parse (filled_ingested .hour false hdated)
  refine ⟨hdated, r, hread, hlatest, Intake.previous?_of_greatest ?_
    (records_ingested .hour false eighteenDigits) hfirst hk ?_ fun q hq _ _ => (htime q hq).2⟩
  · rw [show r.metadata.name = "web" from congrArg ObjectName.name hobject]
    decide
  · rw [hobservation]
    decide +kernel

end WatchHistory
