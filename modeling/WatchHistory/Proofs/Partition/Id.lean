import WatchHistory.Partition
import WatchHistory.Proofs.Decimal.Order
import WatchHistory.Proofs.Text.Order

/-!
# Partition ids

An id reads back exactly if the second that it names has at most twelve digits and no sign
(`start_idAt_iff`); what is read is the start that the id was written from (`eq_idAt_of_start`).
Among such seconds the order of the ids is the order of time (`idAt_lt_idAt_iff`).
-/

set_option autoImplicit false

namespace WatchHistory

namespace Instant

theorem lt_iff {a b : Instant} :
    a < b ↔ a.seconds < b.seconds ∨ (¬ b.seconds < a.seconds ∧ a.nanos < b.nanos) := Iff.rfl

theorem le_iff {a b : Instant} : a ≤ b ↔ ¬ b < a := Iff.rfl

theorem le_of_lt {a b : Instant} (h : a < b) : a ≤ b := fun h' =>
  StrictOrder.irrefl a (StrictOrder.trans h h')

theorem seconds_le_of_le {a b : Instant} (h : a ≤ b) : a.seconds ≤ b.seconds := by
  rw [le_iff, lt_iff] at h
  omega

end Instant

namespace Partition

/-- Whether a second has an id of twelve digits. -/
def InRange (second : Int) : Prop := 0 ≤ second ∧ second < idLimit

instance (second : Int) : Decidable (InRange second) :=
  inferInstanceAs (Decidable (0 ≤ second ∧ second < idLimit))

theorem InRange.max {a b : Int} (ha : InRange a) (hb : InRange b) : InRange (max a b) := by
  unfold InRange at *
  omega

theorem InRange.min {a b : Int} (ha : InRange a) (hb : InRange b) : InRange (min a b) := by
  unfold InRange at *
  omega

theorem toList_idAt_of_inRange {s : Int} (h : InRange s) :
    (idAt s).toList = Decimal.padded 12 s.natAbs := by
  have h₀ : ¬ s < 0 := Int.not_lt.mpr h.1
  rw [idAt, String.toList_ofList, Decimal.paddedInt, if_neg h₀, idWidth]

theorem natAbs_lt_of_inRange {s : Int} (h : InRange s) : s.natAbs < 10 ^ 12 := by
  have h₁ : 0 ≤ s := h.1
  have h₂ : s < 1000000000000 := h.2
  omega

theorem ranked_idAt (s : Int) : Text.Ranked (idAt s).toList := by
  have hdigit : ∀ c : Char, c.isDigit = true → '/' < c := by
    intro c hc
    have hcode := Decimal.toNat_eq_of_isDigit hc
    show 47 < c.toNat
    omega
  rw [idAt, String.toList_ofList, Decimal.paddedInt]
  split
  · exact ⟨by simp, fun c hc => hdigit c (Decimal.isDigit_of_mem_padded hc)⟩
  · refine ⟨fun hnil => ?_, fun c hc =>
      hdigit c (Decimal.isDigit_of_mem_padded (List.mem_of_mem_tail hc))⟩
    have hlength := Decimal.le_length_padded idWidth s.natAbs
    rw [hnil] at hlength
    exact absurd hlength (by decide)

theorem slash_notMem_idAt (s : Int) : '/' ∉ (idAt s).toList := by
  intro h
  rw [idAt, String.toList_ofList, Decimal.paddedInt] at h
  split at h
  · rcases List.mem_cons.mp h with h | h
    · exact absurd h (by decide)
    · exact absurd (Decimal.isDigit_of_mem_padded h) (by decide)
  · exact absurd (Decimal.isDigit_of_mem_padded h) (by decide)

theorem plain_idAt (s : Int) : Text.Plain (idAt s).toList := by
  intro c hc
  rw [idAt, String.toList_ofList, Decimal.paddedInt] at hc
  rintro rfl
  split at hc
  · rw [List.head?_cons, Option.some.injEq] at hc
    exact absurd hc (by decide)
  · exact absurd (Decimal.isDigit_of_mem_padded (List.mem_of_mem_head? hc)) (by decide)

/-! ## Reading ids -/

theorem start_eq_ok_iff {id : String} {t : Instant} :
    start id = .ok t ↔ (id.toList.length = 12 ∧ ∀ c ∈ id.toList, c.isDigit = true) ∧
      t.seconds = Decimal.value id.toList ∧ t.nanos = 0 := by
  unfold start idWidth
  split
  · next h =>
    simp only [Bool.and_eq_true, decide_eq_true_eq, List.all_eq_true] at h
    have hread : Instant.ofSeconds? (Decimal.value id.toList) = some t ↔
        t.seconds = Decimal.value id.toList ∧ t.nanos = 0 := Instant.of?_eq_some_iff
    rw [← hread]
    cases Instant.ofSeconds? (Decimal.value id.toList) with
    | none => simp
    | some u => simpa using fun _ : u = t => h
  · next h =>
    simp only [Bool.and_eq_true, decide_eq_true_eq, List.all_eq_true] at h
    simp [h]

theorem eq_idAt_of_digits {id : String}
    (h : id.toList.length = 12 ∧ ∀ c ∈ id.toList, c.isDigit = true) :
    id = idAt (Decimal.value id.toList) ∧ InRange (Decimal.value id.toList) := by
  obtain ⟨hlength, hdigits⟩ := h
  have hlt := Decimal.value_lt hdigits
  rw [hlength] at hlt
  have hrange : InRange (Decimal.value id.toList) :=
    ⟨Int.natCast_nonneg _, by show (_ : Int) < 1000000000000; omega⟩
  refine ⟨String.toList_injective ?_, hrange⟩
  have hne : id.toList ≠ [] := fun hnil => by simp [hnil] at hlength
  have hpadded := Decimal.padded_value hne hdigits
  rw [hlength] at hpadded
  rw [toList_idAt_of_inRange hrange, Int.natAbs_natCast, hpadded]

/-- An id that reads is the id of the second that is read, which has at most twelve digits. -/
theorem eq_idAt_of_start {id : String} {t : Instant} (h : start id = .ok t) :
    id = idAt t.seconds ∧ InRange t.seconds ∧ t.nanos = 0 := by
  obtain ⟨hdigits, hseconds, hnanos⟩ := start_eq_ok_iff.mp h
  rw [hseconds]
  obtain ⟨hid, hrange⟩ := eq_idAt_of_digits hdigits
  exact ⟨hid, hrange, hnanos⟩

/-- The start of a second, moved to the nearer end of the representable span if it lies outside. -/
def startAt (s : Int) : Instant := .clamped s 0 (by decide)

@[simp] theorem nanos_startAt (s : Int) : (startAt s).nanos = 0 := rfl

theorem seconds_startAt {s : Int} (h : InRange s) : (startAt s).seconds = s := by
  have h₁ : 0 ≤ s := h.1
  have h₂ : s < 1000000000000 := h.2
  show max (-8334601228800) (min 8210266876799 s) = s
  omega

theorem start_idAt {s : Int} (h : InRange s) : start (idAt s) = .ok (startAt s) := by
  have h₁ : 0 ≤ s := h.1
  have h₂ : s < 1000000000000 := h.2
  have hvalue : ((Decimal.value (idAt s).toList : Nat) : Int) = s := by
    rw [toList_idAt_of_inRange h, Decimal.value_padded]
    omega
  have hlength : (idAt s).toList.length = 12 := by
    rw [toList_idAt_of_inRange h]
    exact Decimal.length_padded (natAbs_lt_of_inRange h) (by decide)
  have hdigits : ∀ c ∈ (idAt s).toList, c.isDigit = true := by
    rw [toList_idAt_of_inRange h]
    exact fun c hc => Decimal.isDigit_of_mem_padded hc
  exact start_eq_ok_iff.mpr ⟨⟨hlength, hdigits⟩, by rw [seconds_startAt h, hvalue], rfl⟩

theorem length_idAt_of_not_inRange {s : Int} (h : ¬ InRange s) :
    ¬ ((idAt s).toList.length = 12 ∧ ∀ c ∈ (idAt s).toList, c.isDigit = true) := by
  rw [idAt, String.toList_ofList, Decimal.paddedInt, idWidth]
  rintro ⟨hlength, hdigits⟩
  split at hlength
  · next hneg =>
    rw [if_pos hneg] at hdigits
    exact absurd (hdigits '-' List.mem_cons_self) (by decide)
  · next hneg =>
    have hlarge : ¬ s.natAbs < 10 ^ 12 := fun hlt =>
      h ⟨Int.not_lt.mp hneg, by show s < 1000000000000; omega⟩
    rw [← Nat.length_toDigits_le_iff (by decide) (by decide)] at hlarge
    simp only [Decimal.padded, Decimal.ofNat, List.length_append, List.length_replicate] at hlength
    omega

/-- The id of a second reads exactly if it has twelve digits and no sign. -/
theorem start_idAt_iff {s : Int} : (∃ t, start (idAt s) = .ok t) ↔ InRange s := by
  constructor
  · rintro ⟨t, ht⟩
    exact Decidable.byContradiction fun h =>
      length_idAt_of_not_inRange h (start_eq_ok_iff.mp ht).1
  · exact fun h => ⟨startAt s, start_idAt h⟩

theorem start_error {id : String} {e : StoreError} (h : start id = .error e) :
    e = .badPartition id := by
  unfold start at h
  split at h
  · split at h <;> cases h
    rfl
  · cases h
    rfl

theorem start_idAt_of_not {s : Int} (h : ¬ InRange s) :
    start (idAt s) = .error (.badPartition (idAt s)) := by
  cases hs : start (idAt s) with
  | ok t => exact absurd (start_idAt_iff.mp ⟨t, hs⟩) h
  | error e => rw [start_error hs]

/-! ## The order of ids -/

theorem idAt_lt_idAt_iff {a b : Int} (ha : InRange a) (hb : InRange b) :
    idAt a < idAt b ↔ a < b := by
  have ha₀ : 0 ≤ a := ha.1
  have hb₀ : 0 ≤ b := hb.1
  rw [String.lt_iff, toList_idAt_of_inRange ha, toList_idAt_of_inRange hb,
    Decimal.padded_lt_padded_iff (by decide) (natAbs_lt_of_inRange ha) (natAbs_lt_of_inRange hb)]
  omega

theorem idAt_lt_idAt_of_neg {a b : Int} (ha : a < 0) (hb : InRange b) : idAt a < idAt b := by
  have hne : (idAt b).toList ≠ [] := (ranked_idAt b).1
  obtain ⟨c, cs, hcs⟩ := List.exists_cons_of_ne_nil hne
  have hdigit : c.isDigit = true := by
    rw [toList_idAt_of_inRange hb] at hcs
    exact Decimal.isDigit_of_mem_padded (hcs ▸ List.mem_cons_self)
  have hcode := Decimal.toNat_eq_of_isDigit hdigit
  rw [String.lt_iff, hcs, idAt, String.toList_ofList, Decimal.paddedInt, if_pos ha,
    List.cons_lt_cons_iff]
  refine .inl ?_
  show 45 < c.toNat
  omega

theorem not_idAt_lt_idAt_of_le {a b : Int} (hb : InRange b) (h : a ≤ b) :
    ¬ idAt b < idAt a := by
  by_cases hneg : a < 0
  · exact String.lt_asymm (idAt_lt_idAt_of_neg hneg hb)
  · have ha : InRange a := ⟨Int.not_lt.mp hneg, Int.lt_of_le_of_lt h hb.2⟩
    rw [idAt_lt_idAt_iff hb ha]
    omega

theorem idAt_injective {a b : Int} (ha : InRange a) (hb : InRange b) (h : idAt a = idAt b) :
    a = b := by
  have hab : ¬ a < b := by rw [← idAt_lt_idAt_iff ha hb, h]; exact String.lt_irrefl _
  have hba : ¬ b < a := by rw [← idAt_lt_idAt_iff hb ha, h]; exact String.lt_irrefl _
  omega

end Partition

namespace Granularity

open WatchHistory.Partition

variable (g : Granularity)

theorem floor_le (s : Int) : g.floor s ≤ s := by
  have := Int.emod_nonneg s (Int.ne_of_gt g.seconds_pos)
  unfold floor
  omega

theorem lt_floor_add (s : Int) : s < g.floor s + g.seconds := by
  have := Int.emod_lt_of_pos s g.seconds_pos
  unfold floor
  omega

theorem dvd_floor (s : Int) : g.seconds ∣ g.floor s := Int.dvd_self_sub_emod

theorem floor_of_dvd {s : Int} (h : g.seconds ∣ s) : g.floor s = s := by
  unfold floor
  rw [Int.emod_eq_zero_of_dvd h, Int.sub_zero]

theorem le_floor {s m : Int} (hm : g.seconds ∣ m) (h : m ≤ s) : m ≤ g.floor s := by
  obtain ⟨a, rfl⟩ := hm
  obtain ⟨b, hb⟩ := g.dvd_floor s
  have hlt := g.lt_floor_add s
  rw [hb] at hlt ⊢
  have hpos := g.seconds_pos
  have hab : g.seconds * a < g.seconds * (b + 1) := by rw [Int.mul_add]; omega
  have := Int.lt_of_mul_lt_mul_left hab (Int.le_of_lt hpos)
  exact Int.mul_le_mul_of_nonneg_left (by omega) (Int.le_of_lt hpos)

theorem add_seconds_le {m n : Int} (hm : g.seconds ∣ m) (hn : g.seconds ∣ n) (h : m < n) :
    m + g.seconds ≤ n := by
  obtain ⟨a, rfl⟩ := hm
  obtain ⟨b, rfl⟩ := hn
  have hab : a + 1 ≤ b := Int.lt_of_mul_lt_mul_left h (Int.le_of_lt g.seconds_pos)
  have := Int.mul_le_mul_of_nonneg_left hab (Int.le_of_lt g.seconds_pos)
  rwa [Int.mul_add, Int.mul_one] at this

theorem floor_mono {s u : Int} (h : s ≤ u) : g.floor s ≤ g.floor u :=
  g.le_floor (g.dvd_floor s) (Int.le_trans (g.floor_le s) h)

theorem seconds_le : g.seconds ≤ 86400 := by cases g <;> decide

theorem sixty_dvd_seconds : (60 : Int) ∣ g.seconds := by cases g <;> decide

theorem inRange_floor {s : Int} (h : InRange s) : InRange (g.floor s) :=
  ⟨g.le_floor (Int.dvd_zero _) h.1, Int.lt_of_le_of_lt (g.floor_le s) h.2⟩

end Granularity

end WatchHistory
