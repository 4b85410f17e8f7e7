import WatchHistory.Proofs.Event.Tally
import WatchHistory.Proofs.Event.Window

/-!
# Counting within the bounds of a store

Events are counted in partitions that lie between the oldest and the newest one that hold rows, and
not in the oldest one if there are several. So counting an event neither opens a partition that is
newer than all others nor fills the one that is dropped next.

* `Store.OnGrid` says of a store that its keys lie in partitions of the granularity with ids of
  twelve digits; `OnGrid.bounds_cases` are the bounds of such a store.
* `Store.Tallied` says what counting may do to a store: `Tallied.spans`, it leaves the bounds as
  they are if the tallies lie between them.
* `Intake.tallied_addGroups`, `Intake.tallied_countEvent`: that is what it does, in the window.
* `countEvent_keeps_bounds` puts them together.
-/

set_option autoImplicit false

namespace WatchHistory

open WatchHistory.Partition

namespace Store

/-- Whether every key is complete and lies in a partition of the granularity whose id has twelve
digits. -/
def OnGrid (g : Granularity) (s : Store) : Prop :=
  s.FiledIn fun second => InRange second ∧ g.seconds ∣ second

variable {g : Granularity} {s s' : Store}

theorem OnGrid.bounds_cases (h : s.OnGrid g) :
    (s.bounds = .ok none ∧ s = .empty) ∨
      ∃ oldest newest, s.bounds = .ok (some (idAt oldest, idAt newest)) ∧
        Spans s.HoldsAny (some (idAt oldest, idAt newest)) ∧ InRange oldest ∧
        g.seconds ∣ oldest ∧ InRange newest ∧ g.seconds ∣ newest := by
  obtain ⟨b, hb, hspans⟩ := bounds_spec h.keyed
  cases b with
  | none =>
    refine .inl ⟨hb, ext_get? fun key => ?_⟩
    cases hrow : s.get? key with
    | none => rfl
    | some row =>
      obtain ⟨t, second, hfiled, -⟩ := h key row hrow
      exact absurd ⟨t, key, row, hrow, hfiled⟩ (hspans (idAt second))
  | some bounds =>
    obtain ⟨min, max⟩ := bounds
    obtain ⟨oldest, rfl, horange, hodvd⟩ := h.of_holdsAny hspans.1
    obtain ⟨newest, rfl, hnrange, hndvd⟩ := h.of_holdsAny hspans.2.1
    exact .inr ⟨oldest, newest, hb, hspans, horange, hodvd, hnrange, hndvd⟩

/-! ## Writing tallies -/

/-- Whether a store comes from another one by writing tallies in partitions of a kind. -/
structure Tallied (P : String → Prop) (s s' : Store) : Prop where
  kept : ∀ key, s.get? key ≠ none → s'.get? key ≠ none
  tally : ∀ key, s'.get? key ≠ s.get? key → ∃ p, Filed .eventCount p key ∧ P p

namespace Tallied

variable {P : String → Prop}

theorem refl (P : String → Prop) (s : Store) : Tallied P s s :=
  ⟨fun _ h => h, fun _ h => absurd rfl h⟩

theorem holdsAny (h : Tallied P s s') {p : String} (hp : s.HoldsAny p) : s'.HoldsAny p := by
  obtain ⟨t, key, row, hrow, hfiled⟩ := hp
  obtain ⟨row', hrow'⟩ := Option.ne_none_iff_exists'.mp (h.kept key (by simp [hrow]))
  exact ⟨t, key, row', hrow', hfiled⟩

theorem holdsAny_cases (h : Tallied P s s') {p : String} (hp : s'.HoldsAny p) :
    s.HoldsAny p ∨ P p := by
  obtain ⟨t, key, row, hrow, hfiled⟩ := hp
  by_cases hkey : s'.get? key = s.get? key
  · exact .inl ⟨t, key, row, hkey ▸ hrow, hfiled⟩
  · obtain ⟨q, hfiled', hq⟩ := h.tally key hkey
    obtain ⟨-, rfl⟩ := hfiled.unique hfiled'
    exact .inr hq

theorem filedIn (h : Tallied P s s') {Q : Int → Prop} (hs : s.FiledIn Q)
    (hP : ∀ p, P p → ∃ second, p = idAt second ∧ Q second) : s'.FiledIn Q := by
  intro key row hrow
  by_cases hkey : s'.get? key = s.get? key
  · exact hs key row (hkey ▸ hrow)
  · obtain ⟨p, hfiled, hp⟩ := h.tally key hkey
    obtain ⟨second, rfl, hsecond⟩ := hP p hp
    exact ⟨.eventCount, second, hfiled, hsecond⟩

/-- Tallies in partitions between the bounds of a store leave its bounds as they are. -/
theorem spans (h : Tallied P s s') {min max : String}
    (hspans : Spans s.HoldsAny (some (min, max)))
    (hP : ∀ p, P p → ¬ p < min ∧ ¬ max < p) : Spans s'.HoldsAny (some (min, max)) := by
  refine ⟨h.holdsAny hspans.1, h.holdsAny hspans.2.1, fun p hp => ?_⟩
  rcases h.holdsAny_cases hp with hheld | hp
  · exact hspans.2.2 p hheld
  · exact hP p hp

end Tallied

end Store

namespace Intake

variable {g : Granularity} {r : Intake} {s s' : Store} {P : String → Prop}

theorem tallied_addGroups {reason : String} {groups : List (String × List (Int × Int))}
    (hids : ∀ group ∈ groups, ∃ second, group.1 = idAt second)
    (hdistinct : groups.Pairwise fun a b => a.1 ≠ b.1) (hP : ∀ group ∈ groups, P group.1)
    (h : groups.foldlM (fun s group => r.addBuckets reason group.1 group.2 s) s = .ok s') :
    Store.Tallied P s s' := by
  obtain ⟨hother, hadded⟩ := addGroups_spec hids hdistinct h
  have hchanged : ∀ key, s'.get? key ≠ s.get? key →
      ∃ group ∈ groups, key = (r.tallyKey group.1).render := by
    intro key hkey
    apply Classical.byContradiction
    intro hnone
    exact hkey (hother key fun group hgroup hsame => hnone ⟨group, hgroup, hsame⟩)
  refine ⟨fun key hkey => ?_, fun key hkey => ?_⟩
  · by_cases hsame : s'.get? key = s.get? key
    · rw [hsame]
      exact hkey
    · obtain ⟨group, hgroup, rfl⟩ := hchanged key hsame
      obtain ⟨minutes, -, htext⟩ := hadded group hgroup
      simp [htext]
  · obtain ⟨group, hgroup, rfl⟩ := hchanged key hkey
    obtain ⟨minutes, hminutes, -⟩ := hadded group hgroup
    obtain ⟨found, hfound, -⟩ := Store.getOrInitial_eq_ok.mp hminutes
    obtain ⟨⟨k, hk⟩, -⟩ := Store.find?_eq_ok.mp hfound
    obtain ⟨second, hp⟩ := hids group hgroup
    refine ⟨group.1, ⟨k, hk, ?_⟩, hP group hgroup⟩
    exact Key.partition_of_parse_render (hp ▸ slash_notMem_idAt second)
      (hp ▸ (ranked_idAt second).1) hk

/-- Whether a partition is not newer than the newest one, and newer than the oldest one unless that
is the only one. -/
def InWindow (min max p : String) : Prop :=
  ¬ max < p ∧ if min = max then p = min else min < p

theorem tallied_countEvent {oldest newest : Int}
    (hbounds : s.bounds = .ok (some (idAt oldest, idAt newest)))
    (hle : ¬ idAt newest < idAt oldest) (hod : g.seconds ∣ oldest) (hnd : g.seconds ∣ newest)
    {n : Nat} (h : r.countEvent g s = .ok (s', n)) :
    Store.Tallied (fun p => (∃ second, p = idAt second ∧ InRange second ∧ g.seconds ∣ second) ∧
      InWindow (idAt oldest) (idAt newest) p) s s' := by
  by_cases hkind : r.observation.kind = Payload.eventKind
  · rcases (countEvent_eq_ok hkind).mp h with
      ⟨-, rfl, -⟩ | ⟨reason, clipped, lastMinute, hcounted, hadd, -⟩
    · exact .refl _ _
    · refine tallied_addGroups (fun _ => exists_idAt_of_mem_groups)
        (pairwise_groups lastMinute clipped) (fun group hgroup => ?_) hadd
      obtain ⟨current, previous, bounds, -, -, hfound, hclip⟩ := counted?_eq_some hcounted
      obtain rfl : (idAt oldest, idAt newest) = bounds :=
        Option.some.inj (Except.ok.inj (hbounds.symm.trans hfound))
      obtain ⟨ho, hn, hle', -⟩ := window_of_clip hod hnd hle hclip
      obtain ⟨second, hp, hrange, hdvd, hstart, hend⟩ :=
        mem_entries_groups_clip hod hnd hle hclip hgroup
      refine ⟨⟨second, hp, hrange, hdvd⟩, ?_, ?_⟩
      · rw [hp, idAt_lt_idAt_iff hn hrange]
        omega
      · unfold EventDelta.windowStart at hstart
        by_cases hsame : oldest = newest
        · rw [if_pos (congrArg idAt hsame), hp]
          rw [if_pos hsame] at hstart
          exact congrArg idAt (by omega)
        · have hpos := g.seconds_pos
          rw [if_neg hsame] at hstart
          rw [if_neg fun hid => hsame (idAt_injective ho hn hid), hp, idAt_lt_idAt_iff ho hrange]
          omega
  · rw [countEvent, if_pos hkind] at h
    cases h
    exact .refl _ _

theorem eq_of_countEvent_of_bounds_none (hbounds : s.bounds = .ok none) {n : Nat}
    (h : r.countEvent g s = .ok (s', n)) : s' = s ∧ n = 0 := by
  by_cases hkind : r.observation.kind = Payload.eventKind
  · rcases (countEvent_eq_ok hkind).mp h with
      ⟨-, hsame, hn⟩ | ⟨reason, clipped, lastMinute, hcounted, -⟩
    · exact ⟨hsame, hn⟩
    · obtain ⟨current, previous, bounds, -, -, hfound, -⟩ := counted?_eq_some hcounted
      cases hbounds.symm.trans hfound
  · rw [countEvent, if_pos hkind] at h
    cases h
    exact ⟨rfl, rfl⟩

end Intake

/-- **Counting stays within the bounds of a store** on the grid. They are the same before and after
an event is counted, and every row that is added or changed is a tally in a partition that is not
newer than the newest one, and newer than the oldest one unless that is the only one. In a store
without rows nothing is counted. -/
theorem countEvent_keeps_bounds {g : Granularity} {r : Intake} {s s' : Store} {n : Nat}
    (h : s.OnGrid g) (hcount : r.countEvent g s = .ok (s', n)) :
    s'.OnGrid g ∧ ∃ b, s.bounds = .ok b ∧ s'.bounds = .ok b ∧ (b = none ↔ s = .empty) ∧
      (b = none → s' = s ∧ n = 0) ∧
      ∀ min max, b = some (min, max) → ∀ key, s'.get? key ≠ s.get? key →
        s'.get? key ≠ none ∧ ∃ p, Filed .eventCount p key ∧ Intake.InWindow min max p := by
  rcases h.bounds_cases with
    ⟨hbounds, hempty⟩ | ⟨oldest, newest, hbounds, hspans, -, hod, -, hnd⟩
  · obtain ⟨rfl, rfl⟩ := Intake.eq_of_countEvent_of_bounds_none hbounds hcount
    refine ⟨h, none, hbounds, hbounds, by simp [hempty], fun _ => ⟨rfl, rfl⟩, ?_⟩
    intro min max hsome
    cases hsome
  · have hle : ¬ idAt newest < idAt oldest := (hspans.2.2 _ hspans.2.1).1
    have htallied := Intake.tallied_countEvent hbounds hle hod hnd hcount
    have hgrid : s'.OnGrid g := htallied.filedIn h fun p hp => hp.1
    obtain ⟨b, hb, hspans'⟩ := Store.bounds_spec hgrid.keyed
    have hsame : b = some (idAt oldest, idAt newest) := by
      refine hspans'.unique (htallied.spans hspans fun p hp => ⟨?_, hp.2.1⟩)
      have hstart := hp.2.2
      split at hstart
      · rw [hstart]
        exact String.lt_irrefl _
      · exact String.lt_asymm hstart
    refine ⟨hgrid, _, hbounds, hsame ▸ hb, ?_, by simp, ?_⟩
    · refine ⟨by simp, fun hempty => ?_⟩
      obtain ⟨t, key, row, hrow, -⟩ := hspans.1
      simp [hempty] at hrow
    · intro min max hminmax key hkey
      cases hminmax
      obtain ⟨p, hfiled, -, hwindow⟩ := htallied.tally key hkey
      refine ⟨fun hgone => ?_, p, hfiled, hwindow⟩
      have hheld : s.get? key ≠ none := fun hnone => hkey (hgone.trans hnone.symm)
      exact htallied.kept key hheld hgone

namespace Intake

/-- The key of a pod's activity in the partition that starts at a second. -/
def podAt (second : Int) : Key .activity := ⟨idAt second, "Pod", "ns", "web", "u"⟩

/-- A pod observed in the first hour and in the third. -/
def firstAndThirdHour : Except StoreError Store := do
  let s ← Store.empty.set (podAt 0) ⟨[], [0]⟩
  s.set (podAt 7200) ⟨[], [7200]⟩

/-- An event about the pod of `firstAndThirdHour`, ten times from the middle of the first hour to
the end of the fifth. -/
def longEvent : Intake :=
  ⟨⟨startAt 18000, "Event", .add, "\x7b\"count\":10," ++
    "\"firstTimestamp\":\"1970-01-01T00:30:00Z\",\"lastTimestamp\":\"1970-01-01T05:00:00Z\"\x7d"⟩,
    .initial, ⟨"Pod", "web", "ns", "u"⟩⟩

/-- Of `longEvent`, the part from the second hour to the third is counted, and nothing of the
rest. -/
theorem countEvent_longEvent :
    ∃ s s', firstAndThirdHour = .ok s ∧ s.OnGrid .hour ∧
      longEvent.countEvent .hour s = .ok (s', 4) ∧
      s'.bounds = .ok (some (idAt 0, idAt 7200)) ∧
      ∃ key, s'.get? key ≠ s.get? key ∧
        ∃ p, Filed .eventCount p key ∧ InWindow (idAt 0) (idAt 7200) p := by
  obtain ⟨s₁, h₁⟩ : ∃ s₁, Store.empty.set (podAt 0) ⟨[], [0]⟩ = .ok s₁ := ⟨_, rfl⟩
  obtain ⟨s, h₂⟩ : ∃ s, s₁.set (podAt 7200) ⟨[], [7200]⟩ = .ok s := ⟨_, rfl⟩
  have hs : firstAndThirdHour = .ok s := by rw [← h₂, firstAndThirdHour, h₁]; rfl
  have hgrid : s.OnGrid .hour :=
    ((Store.FiledIn.empty _).set rfl ⟨by decide, by decide⟩ h₁).set rfl ⟨by decide, by decide⟩ h₂
  have hrun : ((fromStore firstAndThirdHour) >>= longEvent.countEvent .hour).toOption.map Prod.snd =
      some 4 := by decide +kernel
  have hbounds : (firstAndThirdHour >>= Store.bounds).toOption =
      some (some (idAt 0, idAt 7200)) := by decide +kernel
  rw [hs] at hrun hbounds
  obtain ⟨⟨s', n⟩, hfound, rfl⟩ := Option.map_eq_some_iff.mp hrun
  have hcount : longEvent.countEvent .hour s = .ok (s', 4) := eq_ok_of_toOption hfound
  obtain ⟨-, b, hb, hb', -, -, hwindow⟩ := countEvent_keeps_bounds hgrid hcount
  obtain rfl : b = some (idAt 0, idAt 7200) :=
    Except.ok.inj (hb.symm.trans (eq_ok_of_toOption hbounds))
  refine ⟨s, s', hs, hgrid, hcount, hb', ?_⟩
  rcases countEvent_cases (by decide) hcount with ⟨hzero, -⟩ | ⟨-, p, -, -, hkey⟩
  · cases hzero
  · exact ⟨_, hkey, (hwindow _ _ rfl _ hkey).2⟩

end Intake

end WatchHistory
