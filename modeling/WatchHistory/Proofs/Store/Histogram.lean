import WatchHistory.Proofs.Store.Partitions
import WatchHistory.Proofs.Store.Rows

/-!
# The bounds against the histogram

The bounds of a store are read off the first and the last key of each table, while the histogram
walks over every row.

* `counted_histogram`: the histogram tells for a table and a partition how many keys are filed
  there, so a partition counts keys of a table exactly if it holds a row of it
  (`exists_counted_iff`).
* `balanced_histogram`: the total of a partition is the sum over its tables.
* `Written.bounds_histogram`: in a store that was written row by row the bounds are the least and
  the greatest partition of the histogram, also where ids are signed or have thirteen digits.
-/

set_option autoImplicit false

namespace WatchHistory.Store

open WatchHistory.Partition

variable {s s' : Store} {g : Granularity}

/-! ## One count -/

namespace PartitionCount

/-- How many keys of a table were counted. -/
def of (c : PartitionCount) (t : Table) : Nat := (c.byTable.get? t.name).getD 0

/-- Whether the total of a partition is the sum over its tables. -/
def Balanced (c : PartitionCount) : Prop := (c.total : Int) = c.byTable.sumBy fun _ n => n

theorem of_add (c : PartitionCount) (t u : Table) :
    (c.add u).of t = c.of t + if u = t then 1 else 0 := by
  unfold of add
  rw [SortedMap.get?_alter]
  by_cases h : u = t
  · subst h
    simp
  · have hname : ¬ t.name = u.name := fun hname => h (Table.name_injective hname).symm
    simp [h, hname]

theorem Balanced.add {c : PartitionCount} (h : c.Balanced) (t : Table) : (c.add t).Balanced := by
  unfold Balanced PartitionCount.add at *
  rw [SortedMap.sumBy_alter _ _ _ _ _ rfl]
  push_cast
  omega

end PartitionCount

/-! ## Counting key by key -/

/-- The table and the partition of a key, if it is complete. -/
def placeOf? (text : String) : Option (Table × String) :=
  (AnyKey.parse text).toOption.map fun k => (k.table, k.partition)

theorem placeOf?_eq_some_iff {text p : String} {t : Table} :
    placeOf? text = some (t, p) ↔ Filed t p text := by
  unfold placeOf?
  constructor
  · intro h
    obtain ⟨⟨u, k⟩, hk, hplace⟩ := Option.map_eq_some_iff.mp h
    cases hplace
    exact ⟨k, AnyKey.parse_eq_ok_iff.mp (eq_ok_of_toOption hk), rfl⟩
  · rintro ⟨k, hk, rfl⟩
    rw [AnyKey.parse_eq_ok_iff.mpr hk]
    rfl

/-- How many keys of a table were counted in a partition. -/
def counted (m : SortedMap String PartitionCount) (t : Table) (p : String) : Nat :=
  ((m.get? p).map fun c => c.of t).getD 0

theorem counted_countKey (m : SortedMap String PartitionCount) (text : String) (t : Table)
    (p : String) :
    counted (countKey m text) t p =
      counted m t p + if placeOf? text = some (t, p) then 1 else 0 := by
  unfold countKey placeOf?
  cases AnyKey.parse text with
  | error e => simp [Except.toOption]
  | ok key =>
    simp only [counted, SortedMap.get?_alter, Except.toOption, Option.map_some,
      Option.some.injEq, Prod.mk.injEq]
    by_cases hp : p = key.partition
    · subst hp
      rw [if_pos rfl, Option.map_some, Option.getD_some, PartitionCount.of_add]
      simp only [and_true]
      cases m.get? key.partition <;> rfl
    · rw [if_neg hp, if_neg fun h => hp h.2.symm, Nat.add_zero]

theorem counted_foldl_countKey (texts : List String) (m : SortedMap String PartitionCount)
    (t : Table) (p : String) :
    counted (texts.foldl countKey m) t p =
      counted m t p + texts.countP fun text => placeOf? text = some (t, p) := by
  induction texts generalizing m with
  | nil => rfl
  | cons text texts ih =>
    rw [List.foldl_cons, ih, counted_countKey, List.countP_cons]
    simp only [decide_eq_true_eq]
    omega

theorem balanced_foldl_countKey {texts : List String} {m : SortedMap String PartitionCount}
    (h : ∀ p c, m.get? p = some c → c.Balanced) {p : String} {c : PartitionCount}
    (hc : (texts.foldl countKey m).get? p = some c) : c.Balanced := by
  induction texts generalizing m with
  | nil => exact h p c hc
  | cons text texts ih =>
    refine ih (fun q d hd => ?_) hc
    unfold countKey at hd
    cases hkey : AnyKey.parse text with
    | error e => exact h q d (by simpa only [hkey] using hd)
    | ok key =>
      simp only [hkey, SortedMap.get?_alter] at hd
      split at hd
      · obtain rfl := Option.some.inj hd
        refine PartitionCount.Balanced.add ?_ key.table
        cases hold : m.get? key.partition with
        | none => rfl
        | some old => exact h _ old hold
      · exact h q d hd

theorem sumBy_countKey (m : SortedMap String PartitionCount) (text : String) :
    (countKey m text).sumBy (fun _ c => c.total) =
      m.sumBy (fun _ c => c.total) + if (partitionOf? text).isSome then 1 else 0 := by
  unfold countKey partitionOf?
  cases AnyKey.parse text with
  | error e => simp [Except.toOption]
  | ok key =>
    dsimp only
    rw [SortedMap.sumBy_alter _ _ _ _ _ rfl]
    simp only [PartitionCount.add, Except.toOption, Option.map_some, Option.isSome_some, if_true]
    omega

theorem sumBy_foldl_countKey (texts : List String) (m : SortedMap String PartitionCount) :
    (texts.foldl countKey m).sumBy (fun _ c => c.total) =
      m.sumBy (fun _ c => c.total) + texts.countP fun text => (partitionOf? text).isSome := by
  induction texts generalizing m with
  | nil => simp
  | cons text texts ih =>
    rw [List.foldl_cons, ih, sumBy_countKey, List.countP_cons]
    split <;> omega

/-! ## The histogram -/

/-- **What the histogram tells** of a table and a partition is how many keys are filed there. -/
theorem counted_histogram (s : Store) (t : Table) (p : String) :
    counted s.histogram t p = s.rows.keys.countP fun text => placeOf? text = some (t, p) := by
  rw [histogram_eq, counted_foldl_countKey]
  exact Nat.zero_add _

theorem balanced_histogram {p : String} {c : PartitionCount} (h : s.histogram.get? p = some c) :
    c.Balanced :=
  balanced_foldl_countKey (m := .empty) nofun (histogram_eq s ▸ h)

theorem exists_counted_iff {t : Table} {p : String} :
    (∃ c, s.histogram.get? p = some c ∧ 0 < c.of t) ↔ s.Holds t p := by
  have hpos : (∃ c, s.histogram.get? p = some c ∧ 0 < c.of t) ↔ 0 < counted s.histogram t p := by
    unfold counted
    cases s.histogram.get? p <;> simp
  rw [hpos, counted_histogram, List.countP_pos_iff]
  simp only [decide_eq_true_eq, placeOf?_eq_some_iff]
  constructor
  · rintro ⟨key, hkey, hfiled⟩
    obtain ⟨row, hrow⟩ := SortedMap.mem_keys_iff.mp hkey
    exact ⟨key, row, hrow, hfiled⟩
  · rintro ⟨key, row, hrow, hfiled⟩
    exact ⟨key, SortedMap.mem_keys_iff.mpr ⟨row, hrow⟩, hfiled⟩

/-- Where every key is complete, the histogram counts every row once. -/
theorem Keyed.sumBy_histogram (h : s.Keyed) :
    s.histogram.sumBy (fun _ c => c.total) = s.rows.size := by
  have hall : s.rows.keys.countP (fun text => (partitionOf? text).isSome) = s.rows.size := by
    have hlength : s.rows.keys.length = s.rows.size := List.length_map _
    rw [← hlength, List.countP_eq_length]
    intro key hkey
    obtain ⟨row, hrow⟩ := SortedMap.mem_keys_iff.mp hkey
    obtain ⟨t, second, hfiled⟩ := h key row hrow
    rw [partitionOf?_eq_some_iff.mpr ⟨t, hfiled⟩]
    rfl
  rw [histogram_eq, sumBy_foldl_countKey, SortedMap.sumBy_empty, Int.zero_add, hall]

/-! ## Written stores -/

/-- A row that is written under the key of an object and an instant, whatever the instant is. -/
inductive WrittenRow (g : Granularity) : String → String → Prop
  | mk {t : Table} {time : Instant} {kind ns name : String} {last : t.Last} {k : Key t}
      (row : t.Row) (hk : Key.parse t (Key.within g t time kind ns name last).render = .ok k) :
      WrittenRow g (Key.within g t time kind ns name last).render (t.write row)

/-- Whether every row of a store is a `WrittenRow`. -/
def Written (g : Granularity) (s : Store) : Prop :=
  ∀ key text, s.get? key = some text → WrittenRow g key text

theorem written_empty (g : Granularity) : empty.Written g := nofun

namespace Written

theorem set (h : s.Written g) {t : Table} {time : Instant} {kind ns name : String} {last : t.Last}
    {row : t.Row} (hset : s.set (Key.within g t time kind ns name last) row = .ok s') :
    s'.Written g := by
  obtain ⟨⟨k, hk⟩, -⟩ := set_eq_ok.mp hset
  intro key text htext
  rw [get?_set hset] at htext
  split at htext
  · next hkey =>
    cases htext
    exact hkey ▸ .mk row hk
  · exact h key text htext

theorem keyed (h : s.Written g) : s.Keyed := by
  intro key text htext
  obtain ⟨-, hk⟩ := h key text htext
  exact ⟨_, _, _, hk, Key.partition_of_parse_within hk⟩

/-- **The bounds are those of the histogram.** They are always found: those of the store are the
least and the greatest partition that is counted at all, and there are none just where nothing is
counted; those of a table are the least and the greatest one that counts a key of it. The total of
a partition is the sum over its tables, and that of all partitions the number of rows. -/
theorem bounds_histogram (h : s.Written g) :
    (∃ b, s.bounds = .ok b ∧ Spans (fun p => p ∈ s.histogram.keys) b ∧
      (b = none ↔ s.histogram = .empty)) ∧
    (∀ t, ∃ b, s.tableBounds t = .ok b ∧
      Spans (fun p => ∃ c, s.histogram.get? p = some c ∧ 0 < c.of t) b) ∧
    (∀ p c, s.histogram.get? p = some c → (c.total : Int) = c.byTable.sumBy fun _ n => n) ∧
    s.histogram.sumBy (fun _ c => c.total) = s.rows.size := by
  refine ⟨?_, fun t => ?_, fun p c hc => balanced_histogram hc, h.keyed.sumBy_histogram⟩
  · obtain ⟨b, hb, hspans⟩ := bounds_spec h.keyed
    have hkeys : Spans (fun p => p ∈ s.histogram.keys) b :=
      (Spans.congr fun p => mem_keys_histogram).mpr hspans
    refine ⟨b, hb, hkeys, fun hnone => ?_, fun hempty => ?_⟩
    · subst hnone
      refine SortedMap.ext_get? fun p => Option.eq_none_iff_forall_ne_some.mpr fun c hc => ?_
      exact hkeys p (SortedMap.mem_keys_iff.mpr ⟨c, hc⟩)
    · cases b with
      | none => rfl
      | some ends =>
        have hmin : ends.1 ∈ s.histogram.keys := hkeys.1
        rw [hempty] at hmin
        cases hmin
  · obtain ⟨b, hb, hspans⟩ := tableBounds_spec h.keyed t
    exact ⟨b, hb, (Spans.congr fun p => exists_counted_iff).mpr hspans⟩

/-- The activity of a pod in the hour of a second. -/
def activityAt (second : Int) : Key .activity :=
  .within .hour .activity (startAt second) "Pod" "ns" "web" "u"

/-- Rows of the last hour before the epoch, of the last one with an id of twelve digits and of the
first one with an id of thirteen. -/
def threeWidths : Except StoreError Store := do
  let s ← empty.set (activityAt (-1)) ⟨[], [0]⟩
  let s ← s.set (activityAt 999999999999) ⟨[], [0]⟩
  s.set (activityAt 1000000000800) ⟨[], [0]⟩

/-- The greatest text is not the newest hour, neither for the bounds nor for the histogram. -/
theorem bounds_histogram_threeWidths :
    ∃ s, threeWidths = .ok s ∧ s.Written .hour ∧
      s.bounds = .ok (some ("-00000003600", "999999997200")) ∧
      Spans (fun p => p ∈ s.histogram.keys) (some ("-00000003600", "999999997200")) ∧
      s.histogram.keys = ["-00000003600", "1000000000800", "999999997200"] ∧
      s.histogram.sumBy (fun _ c => c.total) = 3 := by
  have hrun : threeWidths.toOption.map (fun s => (s.bounds.toOption, s.histogram.keys, s.rows.size))
      = some (some (some ("-00000003600", "999999997200")),
        ["-00000003600", "1000000000800", "999999997200"], 3) := by
    decide +kernel
  obtain ⟨s, hthree, hs⟩ := Option.map_eq_some_iff.mp hrun
  have hthree := eq_ok_of_toOption hthree
  simp only [Prod.mk.injEq] at hs
  obtain ⟨hbounds, hkeys, hsize⟩ := hs
  obtain ⟨s₁, h₁, hrest⟩ := bind_eq_ok.mp hthree
  obtain ⟨s₂, h₂, h₃⟩ := bind_eq_ok.mp hrest
  have hwritten : s.Written .hour := (((written_empty .hour).set h₁).set h₂).set h₃
  obtain ⟨⟨b, hb, hspans, -⟩, -, -, hsum⟩ := bounds_histogram hwritten
  obtain rfl := Except.ok.inj (hb.symm.trans (eq_ok_of_toOption hbounds))
  exact ⟨s, hthree, hwritten, hb, hspans, hkeys, hsum.trans (by rw [hsize]; rfl)⟩

end Written

end WatchHistory.Store
