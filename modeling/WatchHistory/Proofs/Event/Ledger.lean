import WatchHistory.Proofs.Event.Tally

/-!
# The total of counts in a store

`Store.eventTotal object reason` is how often events of an object are counted under a reason in all
tallies of a store. `Ledger` says of a store that events can be counted in it: its keys lie in
partitions on the grid, its tallies can be read, and there is room for more.

* `addBuckets_spec`: the minutes of one partition are added to the total of their object and reason,
  and to no other.
* `addGroups_conserves`: so are those of several partitions.
-/

set_option autoImplicit false

namespace WatchHistory

open WatchHistory.Partition

/-- Whether a key is of a tally of an object. -/
def Key.IsOf (k : Key .eventCount) (object : InvolvedObject) : Prop :=
  k.kind = object.kind ∧ k.ns = object.ns ∧ k.name = object.name ∧ k.last = object.uid

instance (k : Key .eventCount) (object : InvolvedObject) : Decidable (k.IsOf object) :=
  inferInstanceAs (Decidable (_ ∧ _ ∧ _ ∧ _))

/-- What the fields of an object have to be for its events to be counted: without slashes, and a
uid that is not empty. -/
structure InvolvedObject.Countable (object : InvolvedObject) : Prop where
  slash_kind : '/' ∉ object.kind.toList
  slash_ns : '/' ∉ object.ns.toList
  slash_name : '/' ∉ object.name.toList
  slash_uid : '/' ∉ object.uid.toList
  identified : object.uid.toList ≠ []

namespace Intake

variable {r : Intake}

theorem isOf_tallyKey {p : String} {object : InvolvedObject} :
    (r.tallyKey p).IsOf object ↔ object = r.involved := by
  obtain ⟨kind, name, ns, uid⟩ := object
  unfold Key.IsOf tallyKey
  rw [InvolvedObject.mk.injEq]
  exact ⟨fun ⟨hkind, hns, hname, huid⟩ => ⟨hkind.symm, hname.symm, hns.symm, huid.symm⟩,
    fun ⟨hkind, hname, hns, huid⟩ => ⟨hkind.symm, hns.symm, hname.symm, huid.symm⟩⟩

theorem parse_tallyKey (h : r.involved.Countable) (second : Int) :
    Key.parse .eventCount (r.tallyKey (idAt second)).render = .ok (r.tallyKey (idAt second)) := by
  refine Key.parse_render ?_ h.identified ?_
  · simp only [Key.fields, List.mem_cons, List.not_mem_nil, or_false, forall_eq_or_imp, forall_eq]
    exact ⟨slash_notMem_idAt second, h.slash_kind, h.slash_ns, h.slash_name, h.slash_uid⟩
  · simp [Key.readLast?, Key.lastText]

end Intake

/-! ## Totals -/

/-- How often a row counts events of an object under a reason; rows that are no tallies count
none. -/
def countOfRow (object : InvolvedObject) (reason key text : String) : Int :=
  match Key.parse .eventCount key, Table.eventCount.read? text with
  | .ok k, some ⟨some minutes⟩ =>
    if k.IsOf object then EventTally.countOf reason minutes else 0
  | _, _ => 0

/-- How often events of an object are counted under a reason. -/
def Store.eventTotal (s : Store) (object : InvolvedObject) (reason : String) : Int :=
  s.rows.sumBy (countOfRow object reason)

section

variable {object : InvolvedObject} {reason key text : String} {k : Key .eventCount}
  {minutes : SortedMap Int ReasonCounts}

theorem countOfRow_eq (hk : Key.parse .eventCount key = .ok k)
    (hread : Table.eventCount.read? text = some ⟨some minutes⟩) :
    countOfRow object reason key text =
      if k.IsOf object then EventTally.countOf reason minutes else 0 := by
  unfold countOfRow
  rw [hk, hread]

theorem countOfRow_eq_zero {t : Table} {k : Key t} (hk : Key.parse t key = .ok k)
    (ht : t ≠ .eventCount) (text : String) : countOfRow object reason key text = 0 := by
  unfold countOfRow
  cases hparse : Key.parse .eventCount key with
  | error fault => rfl
  | ok k' => exact absurd (Key.table_eq_of_parse hk hparse) ht

theorem read?_write_tally (h : EventTally.representableMinutes minutes = true) :
    Table.eventCount.read? (Table.eventCount.write ⟨some minutes⟩) = some ⟨some minutes⟩ := by
  rw [Table.read?_write]
  exact if_pos h

end

namespace Store

variable {s s' : Store}

theorem eventTotal_set {t : Table} {k : Key t} {row : t.Row} (h : s.set k row = .ok s')
    (object : InvolvedObject) (reason : String) :
    s'.eventTotal object reason = s.eventTotal object reason -
      ((s.get? k.render).map (countOfRow object reason k.render)).getD 0 +
        countOfRow object reason k.render (t.write row) := by
  obtain ⟨-, rfl⟩ := set_eq_ok.mp h
  exact SortedMap.sumBy_insert s.rows k.render (t.write row) (countOfRow object reason)

theorem eventTotal_set_of_ne {t : Table} {k : Key t} {row : t.Row} (h : s.set k row = .ok s')
    (ht : t ≠ .eventCount) (object : InvolvedObject) (reason : String) :
    s'.eventTotal object reason = s.eventTotal object reason := by
  obtain ⟨⟨k', hk'⟩, -⟩ := set_eq_ok.mp h
  rw [eventTotal_set h, countOfRow_eq_zero hk' ht]
  cases s.get? k.render with
  | none => simp
  | some text => simp [countOfRow_eq_zero hk' ht]

end Store

/-! ## Stores in which events can be counted -/

/-- Whether events of an object can be counted in a store under a reason: every key lies in a
partition on the grid, every tally is a written one that has its minutes, and those of the object
have room for `room` more. A count is a number of 64 bits, and what a sum beyond that comes to is
left open here. -/
structure Ledger (g : Granularity) (object : InvolvedObject) (reason : String) (room : Int)
    (s : Store) : Prop where
  filed : ∀ key text, s.get? key = some text →
    ∃ t second, Filed t (idAt second) key ∧ InRange second ∧ g.seconds ∣ second
  tallies : ∀ key text k, s.get? key = some text → Key.parse .eventCount key = .ok k →
    ∃ minutes, text = Table.eventCount.write ⟨some minutes⟩ ∧
      EventTally.representableMinutes minutes = true ∧
      (k.IsOf object → EventTally.AtMost reason (Decimal.greatest - room) minutes)

namespace Ledger

variable {g : Granularity} {object : InvolvedObject} {reason : String} {room : Int}
  {s s' : Store}

theorem keyed (h : Ledger g object reason room s) : s.Keyed := fun key text htext =>
  let ⟨t, second, hfiled, _⟩ := h.filed key text htext
  ⟨t, second, hfiled⟩

theorem mono (h : Ledger g object reason room s) {less : Int} (hle : less ≤ room) :
    Ledger g object reason less s := by
  refine ⟨h.filed, fun key text k htext hk => ?_⟩
  obtain ⟨minutes, hwrite, hrep, hatMost⟩ := h.tallies key text k htext hk
  refine ⟨minutes, hwrite, hrep, fun hof minute => ?_⟩
  have := hatMost hof minute
  omega

theorem filed_of_set (h : Ledger g object reason room s) {t : Table} {k : Key t} {row : t.Row}
    {second : Int} (hp : k.partition = idAt second) (hrange : InRange second)
    (hdvd : g.seconds ∣ second) (hset : s.set k row = .ok s') (key text : String)
    (htext : s'.get? key = some text) :
    ∃ t second, Filed t (idAt second) key ∧ InRange second ∧ g.seconds ∣ second := by
  rw [Store.get?_set hset] at htext
  split at htext
  · next hkey =>
    subst hkey
    exact ⟨t, second, Store.filed_of_set hp hset, hrange, hdvd⟩
  · exact h.filed key text htext

theorem set_of_ne (h : Ledger g object reason room s) {t : Table} {k : Key t} {row : t.Row}
    {second : Int} (hp : k.partition = idAt second) (hrange : InRange second)
    (hdvd : g.seconds ∣ second) (ht : t ≠ .eventCount) (hset : s.set k row = .ok s') :
    Ledger g object reason room s' := by
  refine ⟨h.filed_of_set hp hrange hdvd hset, fun key text k' htext hk' => ?_⟩
  rw [Store.get?_set hset] at htext
  split at htext
  · next hkey =>
    obtain ⟨⟨k'', hk''⟩, -⟩ := Store.set_eq_ok.mp hset
    rw [hkey] at hk'
    exact absurd (Key.table_eq_of_parse hk'' hk') ht
  · exact h.tallies key text k' htext hk'

variable {r : Intake}

theorem tally (h : Ledger g r.involved reason room s) (hobject : r.involved.Countable)
    (hroom : room ≤ Decimal.greatest) (second : Int) :
    ∃ minutes, s.getOrInitial (r.tallyKey (idAt second)) = .ok ⟨some minutes⟩ ∧
      EventTally.representableMinutes minutes = true ∧
      EventTally.AtMost reason (Decimal.greatest - room) minutes ∧
      ∀ object reason', ((s.get? (r.tallyKey (idAt second)).render).map
        (countOfRow object reason' (r.tallyKey (idAt second)).render)).getD 0 =
          if object = r.involved then EventTally.countOf reason' minutes else 0 := by
  have hparse := r.parse_tallyKey hobject second
  cases htext : s.get? (r.tallyKey (idAt second)).render with
  | none =>
    refine ⟨.empty, ?_, rfl, fun minute => ?_, fun object reason' => ?_⟩
    · exact Store.getOrInitial_eq_ok.mpr
        ⟨none, Store.find?_eq_ok.mpr ⟨⟨_, hparse⟩, .inl ⟨htext, rfl⟩⟩, rfl⟩
    · show 0 ≤ _
      omega
    · split <;> rfl
  | some text =>
    obtain ⟨minutes, rfl, hrep, hatMost⟩ := h.tallies _ _ _ htext hparse
    have hread := read?_write_tally hrep
    refine ⟨minutes, ?_, hrep, hatMost (Intake.isOf_tallyKey.mpr rfl), fun object reason' => ?_⟩
    · exact Store.getOrInitial_eq_ok.mpr ⟨some ⟨some minutes⟩, Store.find?_eq_ok.mpr
        ⟨⟨_, hparse⟩, .inr ⟨_, _, htext, hread, rfl⟩⟩, rfl⟩
    · rw [Option.map_some, Option.getD_some, countOfRow_eq hparse hread]
      simp only [Intake.isOf_tallyKey]

/-- `addBuckets` adds the minutes of a partition to the total of the object under the reason, and to
no other. -/
theorem addBuckets_spec (h : Ledger g r.involved reason room s) (hobject : r.involved.Countable)
    (hroom : room ≤ Decimal.greatest) {second : Int} (hrange : InRange second)
    (hdvd : g.seconds ∣ second) {buckets : List (Int × Int)}
    (hbuckets : ∀ bucket ∈ buckets, Decimal.fits bucket.1 = true ∧ 0 ≤ bucket.2)
    (hsum : (buckets.map Prod.snd).sum ≤ room) :
    ∃ s', r.addBuckets reason (idAt second) buckets s = .ok s' ∧
      Ledger g r.involved reason (room - (buckets.map Prod.snd).sum) s' ∧
      ∀ object reason', s'.eventTotal object reason' = s.eventTotal object reason' +
        if object = r.involved ∧ reason' = reason then (buckets.map Prod.snd).sum else 0 := by
  have hparse := r.parse_tallyKey hobject second
  obtain ⟨minutes, hminutes, hrep, hatMost, hbefore⟩ := h.tally hobject hroom second
  obtain ⟨hrep', hatMost'⟩ := EventTally.addedTo_spec hrep hbuckets hatMost (by omega)
  have hpositive := sum_counts_nonneg fun bucket hbucket => (hbuckets bucket hbucket).2
  have hset := Store.set_of_parse hparse s ⟨some (Intake.addedTo minutes reason buckets)⟩
  refine ⟨_, Intake.addBuckets_eq_ok.mpr ⟨minutes, hminutes, hset⟩,
    ⟨h.filed_of_set rfl hrange hdvd hset, fun key text k htext hk => ?_⟩,
    fun object reason' => ?_⟩
  · rw [Store.get?_set hset] at htext
    split at htext
    · cases htext
      refine ⟨_, rfl, hrep', fun _ minute => ?_⟩
      have := hatMost' minute
      omega
    · have hless : Ledger g r.involved reason (room - (buckets.map Prod.snd).sum) s :=
        h.mono (by omega)
      exact hless.tallies key text k htext hk
  · rw [Store.eventTotal_set hset, hbefore, countOfRow_eq hparse (read?_write_tally hrep'),
      EventTally.countOf_addedTo]
    simp only [Intake.isOf_tallyKey]
    by_cases hobject : object = r.involved
    · simp only [hobject, if_true, true_and]
      omega
    · simp only [hobject, if_false, false_and]
      omega

/-- The minutes of several partitions are added to the total of the object under the reason, and to
no other. -/
theorem addGroups_conserves (h : Ledger g r.involved reason room s)
    (hobject : r.involved.Countable) (hroom : room ≤ Decimal.greatest)
    {groups : List (String × List (Int × Int))}
    (hids : ∀ group ∈ groups, ∃ second, group.1 = idAt second ∧ InRange second ∧
      g.seconds ∣ second)
    (hbuckets : ∀ group ∈ groups, ∀ bucket ∈ group.2,
      Decimal.fits bucket.1 = true ∧ 0 ≤ bucket.2)
    (hsum : (groups.map fun group => (group.2.map Prod.snd).sum).sum ≤ room) :
    ∃ s', groups.foldlM (fun s group => r.addBuckets reason group.1 group.2 s) s = .ok s' ∧
      Ledger g r.involved reason
        (room - (groups.map fun group => (group.2.map Prod.snd).sum).sum) s' ∧
      ∀ object reason', s'.eventTotal object reason' = s.eventTotal object reason' +
        if object = r.involved ∧ reason' = reason then
          (groups.map fun group => (group.2.map Prod.snd).sum).sum
        else 0 := by
  induction groups generalizing s room with
  | nil => exact ⟨s, rfl, h.mono (by simp), fun object reason' => by simp⟩
  | cons group groups ih =>
    obtain ⟨second, hp, hrange, hdvd⟩ := hids group List.mem_cons_self
    have hhead := hbuckets group List.mem_cons_self
    have htail : ∀ group' ∈ groups, ∀ bucket ∈ group'.2,
        Decimal.fits bucket.1 = true ∧ 0 ≤ bucket.2 :=
      fun group' hgroup' => hbuckets group' (List.mem_cons_of_mem _ hgroup')
    have hnonneg : 0 ≤ (groups.map fun group => (group.2.map Prod.snd).sum).sum := by
      apply List.sum_nonneg
      intro sum hsum
      obtain ⟨group', hgroup', rfl⟩ := List.mem_map.mp hsum
      exact sum_counts_nonneg fun bucket hbucket => (htail group' hgroup' bucket hbucket).2
    have hpositive := sum_counts_nonneg fun bucket hbucket => (hhead bucket hbucket).2
    rw [List.map_cons, List.sum_cons] at hsum ⊢
    obtain ⟨s₁, hadd, h₁, htotal₁⟩ :=
      h.addBuckets_spec hobject hroom hrange hdvd hhead (by omega)
    obtain ⟨s', hrest, h', htotal⟩ := ih h₁ (by omega)
      (fun group' hgroup' => hids group' (List.mem_cons_of_mem _ hgroup')) htail (by omega)
    refine ⟨s', ?_, h'.mono (by omega), fun object reason' => ?_⟩
    · rw [List.foldlM_cons, hp, hadd]
      exact hrest
    · rw [htotal, htotal₁]
      split <;> omega

end Ledger

end WatchHistory
