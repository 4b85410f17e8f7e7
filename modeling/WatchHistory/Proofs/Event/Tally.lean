import Mathlib.Algebra.Order.BigOperators.Group.List
import WatchHistory.Proofs.Event.Minutes
import WatchHistory.Proofs.Ingest.Writes

/-!
# Counts in tallies

`EventTally.countOf reason minutes` is how often events of a reason are counted in all minutes of a
tally, and adding buckets to a tally adds their sum to it (`countOf_addedTo`).

* `addGroups_spec`: what counting the minutes of several partitions leaves under each key.
* `countEvent_cases`: counting an event adds no minute and leaves the store as it is, or adds some
  and changes a tally.
-/

set_option autoImplicit false

namespace WatchHistory

open WatchHistory.Partition

theorem sum_counts_nonneg {buckets : List (Int × Int)} (h : ∀ bucket ∈ buckets, 0 ≤ bucket.2) :
    0 ≤ (buckets.map Prod.snd).sum :=
  List.sum_nonneg fun _ hcount =>
    let ⟨bucket, hbucket, heq⟩ := List.mem_map.mp hcount
    heq ▸ h bucket hbucket

namespace EventTally

/-- How often events of a reason are counted in all minutes of a tally. -/
def countOf (reason : String) (minutes : SortedMap Int ReasonCounts) : Int :=
  minutes.sumBy fun _ counts => (counts.get? reason).getD 0

theorem countOf_addTo (minutes : SortedMap Int ReasonCounts) (minute : Int)
    (reason reason' : String) (count : Int) :
    countOf reason' (addTo minutes minute reason count) =
      countOf reason' minutes + if reason' = reason then count else 0 := by
  unfold addTo countOf
  rw [SortedMap.sumBy_alter _ _ _ _ _ rfl, SortedMap.get?_alter]
  by_cases h : reason' = reason
  · subst h
    rw [if_pos rfl, if_pos rfl, Option.getD_some]
    omega
  · rw [if_neg h, if_neg h]
    omega

theorem addedTo_cons (minutes : SortedMap Int ReasonCounts) (reason : String) (bucket : Int × Int)
    (buckets : List (Int × Int)) :
    Intake.addedTo minutes reason (bucket :: buckets) =
      Intake.addedTo (addTo minutes bucket.1 reason bucket.2) reason buckets := rfl

theorem countOf_addedTo (minutes : SortedMap Int ReasonCounts) (reason reason' : String)
    (buckets : List (Int × Int)) :
    countOf reason' (Intake.addedTo minutes reason buckets) =
      countOf reason' minutes + if reason' = reason then (buckets.map Prod.snd).sum else 0 := by
  induction buckets generalizing minutes with
  | nil => simp [Intake.addedTo]
  | cons bucket buckets ih =>
    rw [addedTo_cons, ih, countOf_addTo, List.map_cons, List.sum_cons]
    split <;> omega

/-! ## Counts that fit -/

/-- How often events of a reason are counted in one minute. -/
def countIn (minutes : SortedMap Int ReasonCounts) (minute : Int) (reason : String) : Int :=
  (((minutes.get? minute).getD .empty).get? reason).getD 0

/-- Whether no minute counts more than a bound under a reason. -/
def AtMost (reason : String) (bound : Int) (minutes : SortedMap Int ReasonCounts) : Prop :=
  ∀ minute, countIn minutes minute reason ≤ bound

variable {minutes : SortedMap Int ReasonCounts} {minute count bound : Int} {reason : String}

theorem AtMost.addTo (h : AtMost reason bound minutes) (hcount : 0 ≤ count) :
    AtMost reason (bound + count) (addTo minutes minute reason count) := by
  intro x
  have hx := h x
  unfold countIn at hx ⊢
  rw [EventTally.addTo, SortedMap.get?_alter]
  by_cases hsame : x = minute
  · subst hsame
    rw [if_pos rfl, Option.getD_some, SortedMap.get?_alter, if_pos rfl, Option.getD_some]
    omega
  · rw [if_neg hsame]
    omega

theorem representableReasons_iff {counts : ReasonCounts} :
    representableReasons counts = true ↔
      ∀ reason count, counts.get? reason = some count → Decimal.fits count = true := by
  unfold representableReasons
  rw [List.all_eq_true]
  exact ⟨fun h reason count hget => h (reason, count) (SortedMap.mem_iff_get?.mpr hget),
    fun h e he => h e.1 e.2 (SortedMap.mem_iff_get?.mp he)⟩

theorem representableMinutes_iff : representableMinutes minutes = true ↔
    ∀ minute counts, minutes.get? minute = some counts →
      Decimal.fits minute = true ∧ representableReasons counts = true := by
  unfold representableMinutes
  rw [List.all_eq_true]
  simp only [Bool.and_eq_true]
  exact ⟨fun h minute counts hget => h (minute, counts) (SortedMap.mem_iff_get?.mpr hget),
    fun h e he => h e.1 e.2 (SortedMap.mem_iff_get?.mp he)⟩

theorem least_le_countIn (h : representableMinutes minutes = true) (minute : Int)
    (reason : String) : Decimal.least ≤ countIn minutes minute reason := by
  have hzero : Decimal.least ≤ 0 := by decide
  unfold countIn
  cases hcounts : minutes.get? minute with
  | none => exact hzero
  | some counts =>
    rw [Option.getD_some]
    cases hcount : counts.get? reason with
    | none => exact hzero
    | some count =>
      have hfits := representableReasons_iff.mp
        (representableMinutes_iff.mp h minute counts hcounts).2 reason count hcount
      exact (Decimal.fits_iff.mp hfits).1

theorem representableMinutes_addTo (h : representableMinutes minutes = true)
    (hminute : Decimal.fits minute = true) (hatMost : AtMost reason bound minutes)
    (hcount : 0 ≤ count) (hbound : bound + count ≤ Decimal.greatest) :
    representableMinutes (addTo minutes minute reason count) = true := by
  apply representableMinutes_iff.mpr
  intro x counts hget
  rw [EventTally.addTo, SortedMap.get?_alter] at hget
  split at hget
  · next hx =>
    cases hget
    refine ⟨hx ▸ hminute, representableReasons_iff.mpr fun y n hn => ?_⟩
    rw [SortedMap.get?_alter] at hn
    split at hn
    · cases hn
      have hle := hatMost minute
      have hleast := least_le_countIn h minute reason
      unfold countIn at hle hleast
      exact Decimal.fits_iff.mpr ⟨by omega, by omega⟩
    · cases hcounts : minutes.get? minute with
      | none =>
        rw [hcounts] at hn
        cases hn
      | some known =>
        rw [hcounts] at hn
        exact representableReasons_iff.mp (representableMinutes_iff.mp h minute known hcounts).2 y n
          hn
  · exact representableMinutes_iff.mp h x counts hget

/-- `addedTo` raises what a tally counts by no more than the sum of the buckets, and keeps the tally
representable as long as that fits into 64 bits. -/
theorem addedTo_spec {buckets : List (Int × Int)} (h : representableMinutes minutes = true)
    (hbuckets : ∀ bucket ∈ buckets, Decimal.fits bucket.1 = true ∧ 0 ≤ bucket.2)
    (hatMost : AtMost reason bound minutes)
    (hbound : bound + (buckets.map Prod.snd).sum ≤ Decimal.greatest) :
    representableMinutes (Intake.addedTo minutes reason buckets) = true ∧
      AtMost reason (bound + (buckets.map Prod.snd).sum)
        (Intake.addedTo minutes reason buckets) := by
  induction buckets generalizing minutes bound with
  | nil => exact ⟨h, by simpa [Intake.addedTo] using hatMost⟩
  | cons bucket buckets ih =>
    obtain ⟨hminute, hcount⟩ := hbuckets bucket List.mem_cons_self
    have hrest : ∀ b ∈ buckets, Decimal.fits b.1 = true ∧ 0 ≤ b.2 :=
      fun b hb => hbuckets b (List.mem_cons_of_mem _ hb)
    have hsum := sum_counts_nonneg fun b hb => (hrest b hb).2
    rw [List.map_cons, List.sum_cons, ← Int.add_assoc] at hbound ⊢
    exact ih (representableMinutes_addTo h hminute hatMost hcount (by omega)) hrest
      (hatMost.addTo hcount) hbound

end EventTally

namespace Intake

variable {g : Granularity} {r : Intake} {s s' : Store} {reason : String}

/-! ## Partition by partition -/

theorem render_tallyKey_ne {a b : Int} (hne : idAt a ≠ idAt b) {k : Key .eventCount}
    (hk : Key.parse .eventCount (r.tallyKey (idAt a)).render = .ok k) :
    (r.tallyKey (idAt a)).render ≠ (r.tallyKey (idAt b)).render := by
  intro hsame
  have ha := Key.partition_of_parse_render (k := r.tallyKey (idAt a)) (slash_notMem_idAt a)
    (ranked_idAt a).1 hk
  have hb := Key.partition_of_parse_render (k := r.tallyKey (idAt b)) (slash_notMem_idAt b)
    (ranked_idAt b).1 (hsame ▸ hk)
  exact hne (ha.symm.trans hb)

/-- Counting the minutes of several partitions adds those of each one to the tally of the object in
it, and leaves every other row. -/
theorem addGroups_spec {groups : List (String × List (Int × Int))}
    (hids : ∀ group ∈ groups, ∃ second, group.1 = idAt second)
    (hdistinct : groups.Pairwise fun a b => a.1 ≠ b.1)
    (h : groups.foldlM (fun s group => r.addBuckets reason group.1 group.2 s) s = .ok s') :
    (∀ key, (∀ group ∈ groups, key ≠ (r.tallyKey group.1).render) → s'.get? key = s.get? key) ∧
      ∀ group ∈ groups, ∃ minutes, s.getOrInitial (r.tallyKey group.1) = .ok ⟨some minutes⟩ ∧
        s'.get? (r.tallyKey group.1).render =
          some (Table.eventCount.write ⟨some (addedTo minutes reason group.2)⟩) := by
  induction groups generalizing s with
  | nil =>
    cases h
    exact ⟨fun _ _ => rfl, fun _ hgroup => absurd hgroup List.not_mem_nil⟩
  | cons group groups ih =>
    rw [List.foldlM_cons] at h
    obtain ⟨s₁, hadd, h⟩ := bind_eq_ok.mp h
    obtain ⟨minutes, hminutes, hset⟩ := addBuckets_eq_ok.mp hadd
    obtain ⟨hhead, htail⟩ := List.pairwise_cons.mp hdistinct
    obtain ⟨hother, hadded⟩ := ih (fun e he => hids e (List.mem_cons_of_mem _ he)) htail h
    have hne : ∀ e ∈ groups, (r.tallyKey group.1).render ≠ (r.tallyKey e.1).render := by
      intro e he
      obtain ⟨⟨k, hk⟩, -⟩ := Store.set_eq_ok.mp hset
      have hgroup := hhead e he
      obtain ⟨a, ha⟩ := hids group List.mem_cons_self
      obtain ⟨b, hb⟩ := hids e (List.mem_cons_of_mem _ he)
      rw [ha] at hk hgroup ⊢
      rw [hb] at hgroup ⊢
      exact render_tallyKey_ne hgroup hk
    refine ⟨fun key hkey => ?_, fun e he => ?_⟩
    · rw [hother key fun e he => hkey e (List.mem_cons_of_mem _ he), Store.get?_set hset,
        if_neg (hkey group List.mem_cons_self)]
    · rcases List.mem_cons.mp he with rfl | he
      · refine ⟨minutes, hminutes, ?_⟩
        rw [hother _ hne, Store.get?_set hset, if_pos rfl]
      · obtain ⟨minutes', hminutes', htext⟩ := hadded e he
        refine ⟨minutes', ?_, htext⟩
        rw [← hminutes']
        apply Store.getOrInitial_congr
        rw [Store.get?_set hset, if_neg (hne e he).symm]

/-! ## The groups of a delta -/

theorem pairwise_groups (lastMinute : Int) (d : EventDelta) :
    (groups g lastMinute d).entries.Pairwise fun a b => a.1 ≠ b.1 := by
  refine (groups g lastMinute d).ascending.imp fun {a b} hlt heq => ?_
  rw [heq] at hlt
  exact StrictOrder.irrefl b.1 hlt

theorem exists_idAt_of_mem_groups {lastMinute : Int} {d : EventDelta}
    {group : String × List (Int × Int)} (h : group ∈ (groups g lastMinute d).entries) :
    ∃ second, group.1 = idAt second := by
  obtain ⟨p, buckets⟩ := group
  obtain ⟨hne, rfl⟩ := mem_entries_groupMinutes h
  obtain ⟨bucket, hbucket⟩ := List.exists_mem_of_ne_nil _ hne
  obtain ⟨t, -, hp⟩ :=
    partitionOfMinute?_eq_some_iff.mp (of_decide_eq_true (List.mem_filter.mp hbucket).2)
  exact ⟨_, hp⟩

/-- What a partition gets of a delta does not cancel out, as every count is on one side of zero. -/
theorem sum_ne_zero_of_mem_groups {lastMinute : Int} {d : EventDelta} {p : String}
    {buckets : List (Int × Int)} (h : (p, buckets) ∈ (groups g lastMinute d).entries) :
    (buckets.map Prod.snd).sum ≠ 0 := by
  obtain ⟨hne, hbuckets⟩ := mem_entries_groupMinutes h
  have hcounts : buckets.map Prod.snd ≠ [] := fun hnil => hne (List.map_eq_nil_iff.mp hnil)
  have hsign : ∀ count ∈ buckets.map Prod.snd,
      (0 ≤ d.count → 0 < count) ∧ (d.count ≤ 0 → count < 0) := by
    intro count hcount
    obtain ⟨bucket, hbucket, rfl⟩ := List.mem_map.mp hcount
    rw [hbuckets] at hbucket
    obtain ⟨-, hpos, hneg⟩ := mem_entries_foldMinutes (List.mem_filter.mp hbucket).1
    exact ⟨fun hcount => hpos fun b hb => (EventDelta.mem_spread hb).2.2.2.1 hcount,
      fun hcount => hneg fun b hb => (EventDelta.mem_spread hb).2.2.2.2 hcount⟩
  rcases Int.le_total 0 d.count with hcount | hcount
  · exact (List.sum_pos _ (fun count hmem => (hsign count hmem).1 hcount) hcounts).ne'
  · have hpos : 0 < ((buckets.map Prod.snd).map (- ·)).sum := by
      refine List.sum_pos _ (fun negated hnegated => ?_) (mt List.map_eq_nil_iff.mp hcounts)
      obtain ⟨count, hmem, rfl⟩ := List.mem_map.mp hnegated
      exact Int.neg_pos_of_neg ((hsign count hmem).2 hcount)
    rw [← List.sum_neg] at hpos
    omega

theorem addedTo_ne {minutes : SortedMap Int ReasonCounts} {buckets : List (Int × Int)}
    (hsum : (buckets.map Prod.snd).sum ≠ 0) : addedTo minutes reason buckets ≠ minutes := by
  intro hsame
  have hcount := EventTally.countOf_addedTo minutes reason reason buckets
  rw [hsame, if_pos rfl] at hcount
  omega

/-- `countEvent` adds no minute and leaves the store as it is, or it changes a tally. -/
theorem countEvent_cases (hkind : r.observation.kind = Payload.eventKind) {minutes : Nat}
    (h : r.countEvent g s = .ok (s', minutes)) :
    (minutes = 0 ∧ s' = s) ∨
      (minutes ≠ 0 ∧ ∃ p k, Key.parse .eventCount (r.tallyKey p).render = .ok k ∧
        s'.get? (r.tallyKey p).render ≠ s.get? (r.tallyKey p).render) := by
  rcases (countEvent_eq_ok hkind).mp h with ⟨-, rfl, rfl⟩ | ⟨reason, d, lastMinute, -, hadd, rfl⟩
  · exact .inl ⟨rfl, rfl⟩
  · cases hgroups : (groups g lastMinute d).entries with
    | nil =>
      rw [hgroups] at hadd
      cases hadd
      exact .inl ⟨by rw [SortedMap.values, hgroups]; rfl, rfl⟩
    | cons group rest =>
      obtain ⟨p, buckets⟩ := group
      have hmem : (p, buckets) ∈ (groups g lastMinute d).entries := hgroups ▸ List.mem_cons_self
      obtain ⟨-, hadded⟩ := addGroups_spec (fun _ => exists_idAt_of_mem_groups)
        (pairwise_groups lastMinute d) hadd
      obtain ⟨minutes, hminutes, htext⟩ := hadded _ hmem
      obtain ⟨found, hfound, -⟩ := Store.getOrInitial_eq_ok.mp hminutes
      obtain ⟨⟨k, hk⟩, -⟩ := Store.find?_eq_ok.mp hfound
      refine .inr ⟨?_, p, k, hk, ?_⟩
      · have hlength := List.length_pos_iff.mpr (mem_entries_groupMinutes hmem).1
        rw [SortedMap.values, hgroups, List.map_cons, List.foldr_cons]
        dsimp only
        omega
      · rw [htext]
        refine (Store.get?_ne_write hminutes fun hsame => ?_).symm
        exact addedTo_ne (sum_ne_zero_of_mem_groups hmem)
          (Option.some.inj (congrArg EventTally.byMinute hsame))

end Intake

end WatchHistory
