import WatchHistory.Proofs.Fallible
import WatchHistory.Proofs.Partition.Id
import WatchHistory.Proofs.SortedMap

/-!
# The ids from one partition to another

`Granularity.between` goes from the start of one partition on, a length at a time, until an id comes
after the last one (`idsUpTo_eq_idsFrom`). The step behind the last partition is compared as a text
as well, and an id of thirteen digits never comes after one of twelve (`idAt_lt_of_limit_le`), so
the list ends unless the last partition is the last one with an id of twelve digits
(`idsUpTo_after_last`).

* `between_idAt`: the list from one readable id to another, neither of which has to be on the grid.
* `Enumerates`: which ids a list has. Every list that is found has them (`between_spec`).
* `between_enumerates`: when there is a list, what is in it, and what is told if there is none.
-/

set_option autoImplicit false

namespace WatchHistory.Granularity

open WatchHistory.Partition

variable (g : Granularity)

/-- The ids of `n` partitions, from the one that starts at a second on. -/
def idsFrom (second : Int) : Nat → List String
  | 0 => []
  | n + 1 => idAt second :: idsFrom (second + g.seconds) n

theorem mem_idsFrom {second : Int} {n : Nat} {id : String} :
    id ∈ g.idsFrom second n ↔ ∃ i < n, id = idAt (second + i * g.seconds) := by
  induction n generalizing second with
  | zero => simp [idsFrom]
  | succ n ih =>
    rw [idsFrom, List.mem_cons, ih]
    constructor
    · rintro (rfl | ⟨i, hi, rfl⟩)
      · exact ⟨0, by omega, by simp⟩
      · refine ⟨i + 1, by omega, ?_⟩
        rw [Int.natCast_add, Int.add_mul]
        congr 1
        omega
    · rintro ⟨i, hi, rfl⟩
      cases i with
      | zero => exact .inl (by simp)
      | succ i =>
        refine .inr ⟨i, by omega, ?_⟩
        rw [Int.natCast_add, Int.add_mul]
        congr 1
        omega

theorem pairwise_idsFrom {second : Int} {n : Nat} (hfirst : 0 ≤ second)
    (hend : second + n * g.seconds ≤ idLimit) :
    (g.idsFrom second n).Pairwise fun a b => a < b := by
  have hpos := g.seconds_pos
  induction n generalizing second with
  | zero => exact .nil
  | succ n ih =>
    rw [Int.natCast_add, Int.add_mul] at hend
    refine List.pairwise_cons.mpr ⟨fun id hid => ?_, ih (by omega) (by omega)⟩
    obtain ⟨i, hi, rfl⟩ := g.mem_idsFrom.mp hid
    have hi₀ : 0 ≤ (i : Int) * g.seconds :=
      Int.mul_nonneg (Int.natCast_nonneg i) (Int.le_of_lt hpos)
    have hi₁ : ((i : Int) + 1) * g.seconds ≤ n * g.seconds :=
      Int.mul_le_mul_of_nonneg_right (by omega) (Int.le_of_lt hpos)
    rw [Int.add_mul] at hi₁
    rw [idAt_lt_idAt_iff ⟨hfirst, by omega⟩ ⟨by omega, by omega⟩]
    omega

/-! ## Steps -/

theorem exists_steps {first last : Int} (hdvd : g.seconds ∣ first) (hle : first ≤ last) :
    ∃ n : Nat, first + (n + 1 : Nat) * g.seconds = g.floor last + g.seconds := by
  have hpos := g.seconds_pos
  have hfloor := g.le_floor hdvd hle
  obtain ⟨k, hk⟩ := Int.dvd_sub (g.dvd_floor last) hdvd
  have hk₀ : 0 ≤ k := by
    apply Int.not_lt.mp
    intro hneg
    have := Int.mul_neg_of_pos_of_neg hpos hneg
    omega
  refine ⟨k.toNat, ?_⟩
  rw [Int.natCast_add, Int.toNat_of_nonneg hk₀, Int.add_mul, Int.mul_comm k]
  omega

/-- `idsUpTo` lists the ids up to the last one, one after the other. -/
theorem idsUpTo_eq_idsFrom {last : Int} (hlast : InRange last) {n : Nat} {second : Int}
    (hsecond : 0 ≤ second) (hn : second + n * g.seconds ≤ g.floor last + g.seconds)
    (earlier : List String) :
    g.idsUpTo (idAt last) second earlier =
      g.idsUpTo (idAt last) (second + n * g.seconds)
        ((g.idsFrom second n).reverse ++ earlier) := by
  have hpos := g.seconds_pos
  have hfloor := g.floor_le last
  have hlimit : last < idLimit := hlast.2
  induction n generalizing second earlier with
  | zero => simp [idsFrom]
  | succ n ih =>
    have hsucc : second + (n + 1 : Nat) * g.seconds = second + g.seconds + n * g.seconds := by
      rw [Int.natCast_add, Int.add_mul]
      omega
    rw [hsucc] at hn ⊢
    have hle : second ≤ last := by
      have := Int.mul_nonneg (Int.natCast_nonneg n) (Int.le_of_lt hpos)
      omega
    have hrange : InRange second := ⟨hsecond, by omega⟩
    have hlt : ¬ idAt last < idAt second := by
      rw [idAt_lt_idAt_iff hlast hrange]
      omega
    rw [idsUpTo, if_neg hlt, if_pos hrange.2, ih (by omega) hn, idsFrom, List.reverse_cons,
      List.append_assoc]
    rfl

theorem idAt_lt_of_limit_le {last second : Int} (hlast : InRange last)
    (hdvd : g.seconds ∣ second) (hlimit : idLimit ≤ second) (hle : second ≤ last + g.seconds) :
    idAt second < idAt last := by
  have hlimit' : (1000000000000 : Int) ≤ second := hlimit
  have hlast' : last < 1000000000000 := hlast.2
  have hbetween : ∀ first : Int, idAt second < idAt first → first ≤ last →
      idAt second < idAt last := by
    intro first hfirst hle
    have hfirstle := String.not_lt.mp (not_idAt_lt_idAt_of_le hlast hle)
    exact String.not_le.mp fun hnot =>
      String.not_le.mpr hfirst (String.le_trans hfirstle hnot)
  cases g with
  | hour =>
    have hsecond : second = 1000000000800 := by
      change (3600 : Int) ∣ second at hdvd
      change second ≤ last + 3600 at hle
      omega
    subst hsecond
    refine hbetween 999999997200 (by decide +kernel) ?_
    change _ ≤ last + 3600 at hle
    omega
  | day =>
    have hsecond : second = 1000000080000 := by
      change (86400 : Int) ∣ second at hdvd
      change second ≤ last + 86400 at hle
      omega
    subst hsecond
    refine hbetween 999999993600 (by decide +kernel) ?_
    change _ ≤ last + 86400 at hle
    omega

theorem idsUpTo_after_last {last : Int} (hlast : InRange last) (earlier : List String) :
    g.idsUpTo (idAt last) (g.floor last + g.seconds) earlier =
      if InRange (g.floor last + g.seconds) then .ok earlier.reverse
      else .error (.badPartition (idAt (g.floor last + g.seconds))) := by
  have hpos := g.seconds_pos
  have hfloor := g.floor_le last
  have hafter := g.lt_floor_add last
  have hnonneg := (g.inRange_floor hlast).1
  split
  · next hnext =>
    rw [idsUpTo, if_pos ((idAt_lt_idAt_iff hlast hnext).mpr hafter)]
  · next hnext =>
    have hlimit : idLimit ≤ g.floor last + g.seconds :=
      Int.not_lt.mp fun hlt => hnext ⟨by omega, hlt⟩
    have hbefore := g.idAt_lt_of_limit_le hlast
      (Int.dvd_add (g.dvd_floor last) (Int.dvd_refl _)) hlimit (by omega)
    rw [idsUpTo, if_neg (String.lt_asymm hbefore), if_neg (Int.not_lt.mpr hlimit)]

/-! ## Lists -/

theorem between_eq_idsUpTo {first last : Int} (hfirst : InRange first) (hlast : InRange last) :
    g.between (idAt first) (idAt last) = g.idsUpTo (idAt last) (g.floor first) [] := by
  unfold between
  rw [start_idAt hlast, start_idAt hfirst]
  show g.idsUpTo _ (g.floor (startAt first).seconds) [] = _
  rw [seconds_startAt hfirst]

theorem between_of_lt {first last : Int} (hfirst : InRange first) (hlast : InRange last)
    (hlt : last < g.floor first) : g.between (idAt first) (idAt last) = .ok [] := by
  rw [g.between_eq_idsUpTo hfirst hlast, idsUpTo,
    if_pos ((idAt_lt_idAt_iff hlast (g.inRange_floor hfirst)).mpr hlt)]
  rfl

theorem between_idAt {first last : Int} (hfirst : InRange first) (hlast : InRange last)
    (hle : g.floor first ≤ last) :
    ∃ n : Nat, g.floor first + (n + 1 : Nat) * g.seconds = g.floor last + g.seconds ∧
      g.between (idAt first) (idAt last) =
        if InRange (g.floor last + g.seconds) then .ok (g.idsFrom (g.floor first) (n + 1))
        else .error (.badPartition (idAt (g.floor last + g.seconds))) := by
  obtain ⟨n, hn⟩ := g.exists_steps (g.dvd_floor first) hle
  refine ⟨n, hn, ?_⟩
  rw [g.between_eq_idsUpTo hfirst hlast,
    g.idsUpTo_eq_idsFrom hlast (g.inRange_floor hfirst).1 (Int.le_of_eq hn), hn,
    g.idsUpTo_after_last hlast, List.append_nil, List.reverse_reverse]

theorem mem_idsFrom_iff_dvd {first last : Int} (hdvd : g.seconds ∣ first) {n : Nat}
    (hn : first + n * g.seconds = g.floor last + g.seconds) {id : String} :
    id ∈ g.idsFrom first n ↔ ∃ s, id = idAt s ∧ g.seconds ∣ s ∧ first ≤ s ∧ s ≤ last := by
  have hpos := g.seconds_pos
  rw [g.mem_idsFrom]
  constructor
  · rintro ⟨i, hi, rfl⟩
    have hi₀ : 0 ≤ (i : Int) * g.seconds :=
      Int.mul_nonneg (Int.natCast_nonneg i) (Int.le_of_lt hpos)
    have hi₁ : ((i : Int) + 1) * g.seconds ≤ n * g.seconds :=
      Int.mul_le_mul_of_nonneg_right (by omega) (Int.le_of_lt hpos)
    have hfloor := g.floor_le last
    rw [Int.add_mul] at hi₁
    exact ⟨_, rfl, Int.dvd_add hdvd (Int.dvd_mul_left _ _), by omega, by omega⟩
  · rintro ⟨s, rfl, hsd, hfs, hsl⟩
    obtain ⟨i, hi⟩ := Int.dvd_sub hsd hdvd
    have hlt : s < first + n * g.seconds := by
      have := g.le_floor hsd hsl
      omega
    have hi₀ : 0 ≤ i := by
      apply Int.not_lt.mp
      intro hneg
      have := Int.mul_neg_of_pos_of_neg hpos hneg
      omega
    have hin : i < n := by
      refine Int.lt_of_mul_lt_mul_left ?_ (Int.le_of_lt hpos)
      rw [Int.mul_comm g.seconds n]
      omega
    refine ⟨i.toNat, by omega, ?_⟩
    rw [Int.toNat_of_nonneg hi₀, Int.mul_comm i]
    congr 1
    omega

/-- Whether `ids` are those of the partitions that start from the start of the first second's
partition on and up to the last second, each once and in order. -/
structure Enumerates (first last : Int) (ids : List String) : Prop where
  ascending : ids.Pairwise fun p q => p < q
  mem_iff : ∀ id, id ∈ ids ↔ ∃ s, id = idAt s ∧ g.seconds ∣ s ∧ g.floor first ≤ s ∧ s ≤ last

namespace Enumerates

variable {g : Granularity} {first last : Int} {ids : List String}

theorem eq_nil_iff (h : g.Enumerates first last ids) : ids = [] ↔ last < g.floor first := by
  constructor
  · intro hnil
    refine Int.not_le.mp fun hle => ?_
    have hfirst := (h.mem_iff _).mpr ⟨_, rfl, g.dvd_floor first, Int.le_refl _, hle⟩
    rw [hnil] at hfirst
    cases hfirst
  · intro hlt
    refine List.eq_nil_iff_forall_not_mem.mpr fun id hid => ?_
    obtain ⟨s, -, -, hfs, hsl⟩ := (h.mem_iff id).mp hid
    exact Int.not_le.mpr hlt (Int.le_trans hfs hsl)

theorem mem_idAt_iff (h : g.Enumerates first last ids) (hfirst : InRange first)
    (hlast : InRange last) {s : Int} (hs : InRange s) :
    idAt s ∈ ids ↔ g.seconds ∣ s ∧ g.floor first ≤ s ∧ s ≤ last := by
  rw [h.mem_iff]
  constructor
  · rintro ⟨s', hid, hdvd, hfs, hsl⟩
    have hs' : InRange s' :=
      ⟨Int.le_trans (g.inRange_floor hfirst).1 hfs, Int.lt_of_le_of_lt hsl hlast.2⟩
    obtain rfl := idAt_injective hs hs' hid
    exact ⟨hdvd, hfs, hsl⟩
  · exact fun hspan => ⟨s, rfl, hspan⟩

theorem exists_inRange (h : g.Enumerates first last ids) (hfirst : InRange first)
    (hlast : InRange last) {id : String} (hid : id ∈ ids) : ∃ s, id = idAt s ∧ InRange s := by
  obtain ⟨s, rfl, -, hfs, hsl⟩ := (h.mem_iff id).mp hid
  exact ⟨s, rfl, Int.le_trans (g.inRange_floor hfirst).1 hfs, Int.lt_of_le_of_lt hsl hlast.2⟩

end Enumerates

/-- `between` lists what `Enumerates` the partitions from the first one up to the last one. -/
theorem between_spec {first last : Int} (hfirst : InRange first) (hlast : InRange last)
    {ids : List String} (h : g.between (idAt first) (idAt last) = .ok ids) :
    g.Enumerates first last ids := by
  by_cases hle : g.floor first ≤ last
  · obtain ⟨n, hn, hids⟩ := g.between_idAt hfirst hlast hle
    rw [hids] at h
    split at h
    · next hnext =>
      cases h
      exact ⟨g.pairwise_idsFrom (g.inRange_floor hfirst).1 (hn ▸ Int.le_of_lt hnext.2),
        fun id => g.mem_idsFrom_iff_dvd (g.dvd_floor first) hn⟩
    · cases h
  · rw [g.between_of_lt hfirst hlast (Int.not_le.mp hle)] at h
    cases h
    refine ⟨.nil, fun id => iff_of_false nofun ?_⟩
    rintro ⟨s, -, -, hfs, hsl⟩
    exact hle (Int.le_trans hfs hsl)

theorem exists_between_eq {first last : Int} (hfirst : InRange first) (hlast : InRange last) :
    ∃ ids, g.between (idAt first) (idAt last) =
      if last < g.floor first ∨ InRange (g.floor last + g.seconds) then .ok ids
      else .error (.badPartition (idAt (g.floor last + g.seconds))) := by
  by_cases hlt : last < g.floor first
  · exact ⟨[], by rw [if_pos (.inl hlt), g.between_of_lt hfirst hlast hlt]⟩
  · obtain ⟨n, -, hids⟩ := g.between_idAt hfirst hlast (Int.not_lt.mp hlt)
    refine ⟨g.idsFrom (g.floor first) (n + 1), hids.trans ?_⟩
    simp only [hlt, false_or]

/-- From one start of a partition to another the ids are found in order and without a gap, and none
if the other one is earlier. -/
theorem between_eq {first last : Int} (hfirst : InRange first) (hdvd : g.seconds ∣ first)
    (hlast : InRange last) (hdvd' : g.seconds ∣ last) (hnext : InRange (last + g.seconds)) :
    ∃ ids, g.between (idAt first) (idAt last) = .ok ids ∧ (ids.Pairwise fun a b => a < b) ∧
      ∀ id, id ∈ ids ↔ ∃ s, id = idAt s ∧ g.seconds ∣ s ∧ first ≤ s ∧ s ≤ last := by
  obtain ⟨ids, hids⟩ := g.exists_between_eq hfirst hlast
  rw [g.floor_of_dvd hdvd', if_pos (.inr hnext)] at hids
  obtain ⟨hsorted, hmem⟩ := g.between_spec hfirst hlast hids
  rw [g.floor_of_dvd hdvd] at hmem
  exact ⟨ids, hids, hsorted, hmem⟩

theorem exists_of_between {first last : String} {ids : List String}
    (h : g.between first last = .ok ids) :
    ∃ a b, (first = idAt a ∧ InRange a) ∧ (last = idAt b ∧ InRange b) ∧
      g.Enumerates a b ids := by
  obtain ⟨_, hlast, hrest⟩ := bind_eq_ok.mp h
  obtain ⟨_, hfirst, -⟩ := bind_eq_ok.mp hrest
  obtain ⟨rfl, ha, -⟩ := eq_idAt_of_start hfirst
  obtain ⟨rfl, hb, -⟩ := eq_idAt_of_start hlast
  exact ⟨_, _, ⟨rfl, ha⟩, ⟨rfl, hb⟩, g.between_spec ha hb h⟩

theorem exists_idAt_of_mem_between {first last : String} {ids : List String}
    (h : g.between first last = .ok ids) {id : String} (hid : id ∈ ids) : ∃ s, id = idAt s := by
  obtain ⟨_, _, ⟨-, ha⟩, ⟨-, hb⟩, hids⟩ := g.exists_of_between h
  obtain ⟨s, rfl, -⟩ := hids.exists_inRange ha hb hid
  exact ⟨s, rfl⟩

theorem idsUpTo_eq_error {last : String} {second : Int} {earlier : List String} {e : StoreError}
    (h : g.idsUpTo last second earlier = .error e) : ∃ id, e = .badPartition id := by
  induction second, earlier using idsUpTo.induct g last with
  | case1 second earlier id hlt =>
    rw [idsUpTo, if_pos hlt] at h
    cases h
  | case2 second earlier id hlt hlimit ih =>
    rw [idsUpTo, if_neg hlt, if_pos hlimit] at h
    exact ih h
  | case3 second earlier id hlt hlimit =>
    rw [idsUpTo, if_neg hlt, if_neg hlimit] at h
    exact ⟨id, (Except.error.inj h).symm⟩

theorem between_eq_error {first last : String} {e : StoreError}
    (h : g.between first last = .error e) : ∃ id, e = .badPartition id := by
  rcases bind_eq_error.mp h with hlast | ⟨_, -, h⟩
  · exact ⟨_, start_error hlast⟩
  rcases bind_eq_error.mp h with hfirst | ⟨_, -, h⟩
  · exact ⟨_, start_error hfirst⟩
  · exact g.idsUpTo_eq_error h

/-- **The ids from one to another.** Of two ids that read, the list is found if the partition of the
first one starts after the last one, or if there is still an id of twelve digits behind the
partition of the last one. It has the ids of the partitions that start from the start of the first
one on and up to the last one, each once, in order and without a gap, and none just where the first
partition starts after the last one. If the list is not found, the id of thirteen digits is told. -/
theorem between_enumerates {first last : String} {a b : Instant}
    (hfirst : Partition.start first = .ok a) (hlast : Partition.start last = .ok b) :
    ((∃ ids, g.between first last = .ok ids) ↔
      b.seconds < g.floor a.seconds ∨ InRange (g.floor b.seconds + g.seconds)) ∧
    (∀ ids, g.between first last = .ok ids →
      g.Enumerates a.seconds b.seconds ids ∧ (ids = [] ↔ b.seconds < g.floor a.seconds)) ∧
    ∀ e, g.between first last = .error e →
      e = .badPartition (idAt (g.floor b.seconds + g.seconds)) := by
  obtain ⟨rfl, ha, -⟩ := eq_idAt_of_start hfirst
  obtain ⟨rfl, hb, -⟩ := eq_idAt_of_start hlast
  obtain ⟨found, hfound⟩ := g.exists_between_eq ha hb
  refine ⟨?_, fun ids hids => ?_, fun e he => ?_⟩
  · rw [hfound]
    split
    · next h => exact iff_of_true ⟨found, rfl⟩ h
    · next h => exact iff_of_false nofun h
  · have hlisted := g.between_spec ha hb hids
    exact ⟨hlisted, hlisted.eq_nil_iff⟩
  · rw [hfound] at he
    split at he
    · cases he
    · exact (Except.error.inj he).symm

/-- Two ids within their hours are listed from the hour of the first one to that of the second
one. -/
theorem between_enumerates_withinHours :
    Partition.start "001546304399" = .ok (startAt 1546304399) ∧
      Partition.start "001546308001" = .ok (startAt 1546308001) ∧
      hour.between "001546304399" "001546308001" =
        .ok ["001546300800", "001546304400", "001546308000"] := by
  have hfirst : Partition.start "001546304399" = .ok (startAt 1546304399) :=
    start_idAt (s := 1546304399) (by decide)
  have hlast : Partition.start "001546308001" = .ok (startAt 1546308001) :=
    start_idAt (s := 1546308001) (by decide)
  obtain ⟨hfound, hids, -⟩ := hour.between_enumerates hfirst hlast
  obtain ⟨ids, hbetween⟩ := hfound.mpr (.inr (by decide))
  obtain ⟨⟨hsorted, hmem⟩, -⟩ := hids ids hbetween
  refine ⟨hfirst, hlast, hbetween.trans (congrArg Except.ok ?_)⟩
  refine SortedMap.keys_eq_of_mem hsorted (by decide +kernel) fun id => ?_
  rw [hmem, List.mem_cons, List.mem_cons, List.mem_singleton]
  constructor
  · rintro ⟨s, rfl, hdvd, hfrom, hto⟩
    change (3600 : Int) ∣ s at hdvd
    change 1546300800 ≤ s at hfrom
    change s ≤ 1546308001 at hto
    obtain rfl | rfl | rfl : s = 1546300800 ∨ s = 1546304400 ∨ s = 1546308000 := by omega
    · exact .inl (by decide +kernel)
    · exact .inr (.inl (by decide +kernel))
    · exact .inr (.inr (by decide +kernel))
  · rintro (rfl | rfl | rfl)
    · exact ⟨1546300800, by decide +kernel⟩
    · exact ⟨1546304400, by decide +kernel⟩
    · exact ⟨1546308000, by decide +kernel⟩

/-- The last id of twelve digits reads, but the list that ends with its partition is not found. -/
theorem between_lastId :
    Partition.start "999999999999" = .ok (startAt 999999999999) ∧
      hour.between "999999999999" "999999999999" = .error (.badPartition "1000000000800") := by
  have hrange : InRange 999999999999 := by decide
  have hid : idAt 999999999999 = "999999999999" := by decide +kernel
  have hnext : idAt (hour.floor 999999999999 + hour.seconds) = "1000000000800" := by
    decide +kernel
  obtain ⟨_, -, hbetween⟩ := hour.between_idAt hrange hrange (by decide)
  rw [if_neg (by decide), hid, hnext] at hbetween
  exact ⟨hid ▸ start_idAt hrange, hbetween⟩

end WatchHistory.Granularity
