import Mathlib.Algebra.Order.Ring.Int
import WatchHistory.Proofs.Json.Numeral
import WatchHistory.Order

/-!
# The order of digits

Among digits of one length, the order of texts is the order of the numbers (`lt_iff_value_lt`), so
a number padded to a width is found again by its digits (`padded_value`) and padded numbers are
ordered as the numbers are (`padded_lt_padded_iff`).
-/

set_option autoImplicit false

namespace WatchHistory.Decimal

/-- The number that a digit stands for. -/
def digit (c : Char) : Nat := c.toNat - '0'.toNat

theorem digit_lt {c : Char} (h : c.isDigit = true) : digit c < 10 := by
  unfold Char.isDigit at h
  simp only [ge_iff_le, Bool.and_eq_true, decide_eq_true_eq, UInt32.le_iff_toNat_le] at h
  have h₁ : 48 ≤ c.toNat := h.1
  have h₂ : c.toNat ≤ 57 := h.2
  have h₀ : '0'.toNat = 48 := by decide
  unfold digit
  omega

theorem toNat_eq_of_isDigit {c : Char} (h : c.isDigit = true) : c.toNat = 48 + digit c := by
  unfold Char.isDigit at h
  simp only [ge_iff_le, Bool.and_eq_true, decide_eq_true_eq, UInt32.le_iff_toNat_le] at h
  have h₁ : 48 ≤ c.toNat := h.1
  have h₀ : '0'.toNat = 48 := by decide
  unfold digit
  omega

theorem value_cons (c : Char) (cs : List Char) :
    value (c :: cs) = digit c * 10 ^ cs.length + value cs := by
  unfold value digit
  rw [Nat.ofDigitChars_cons, Nat.ofDigitChars_eq_ofDigitChars_zero, Nat.mul_comm]
  simp

theorem value_lt {cs : List Char} (h : ∀ c ∈ cs, c.isDigit = true) :
    value cs < 10 ^ cs.length := by
  induction cs with
  | nil => simp [value]
  | cons c cs ih =>
    have hc := digit_lt (h c List.mem_cons_self)
    have hcs := ih fun d hd => h d (List.mem_cons_of_mem _ hd)
    rw [value_cons, List.length_cons, Nat.pow_succ]
    have : digit c * 10 ^ cs.length ≤ 9 * 10 ^ cs.length := Nat.mul_le_mul_right _ (by omega)
    omega

/-- Digits of one length are ordered as the numbers that `value` gives them. -/
theorem lt_iff_value_lt {a b : List Char} (hlength : a.length = b.length)
    (ha : ∀ c ∈ a, c.isDigit = true) (hb : ∀ c ∈ b, c.isDigit = true) :
    a < b ↔ value a < value b := by
  induction a generalizing b with
  | nil =>
    cases b with
    | nil => simp
    | cons d b => simp at hlength
  | cons c a ih =>
    cases b with
    | nil => simp at hlength
    | cons d b =>
      simp only [List.length_cons, Nat.add_right_cancel_iff] at hlength
      have hca := ha c List.mem_cons_self
      have hdb := hb d List.mem_cons_self
      have ha' : ∀ e ∈ a, e.isDigit = true := fun e he => ha e (List.mem_cons_of_mem _ he)
      have hb' : ∀ e ∈ b, e.isDigit = true := fun e he => hb e (List.mem_cons_of_mem _ he)
      have hva := value_lt ha'
      have hvb := value_lt hb'
      have hc := toNat_eq_of_isDigit hca
      have hd := toNat_eq_of_isDigit hdb
      rw [List.cons_lt_cons_iff, value_cons, value_cons, ih hlength ha' hb', hlength]
      rw [hlength] at hva
      have hchar : c < d ↔ digit c < digit d := by
        show c.toNat < d.toNat ↔ _
        omega
      have hsame : c = d ↔ digit c = digit d := by
        rw [← Char.toNat_inj]
        omega
      rw [hchar, hsame]
      rcases Nat.lt_trichotomy (digit c) (digit d) with hlt | heq | hgt
      · have : (digit c + 1) * 10 ^ b.length ≤ digit d * 10 ^ b.length :=
          Nat.mul_le_mul_right _ hlt
        rw [Nat.add_mul] at this
        omega
      · rw [heq]
        omega
      · have : (digit d + 1) * 10 ^ b.length ≤ digit c * 10 ^ b.length :=
          Nat.mul_le_mul_right _ hgt
        rw [Nat.add_mul] at this
        omega

theorem eq_of_value_eq {a b : List Char} (hlength : a.length = b.length)
    (ha : ∀ c ∈ a, c.isDigit = true) (hb : ∀ c ∈ b, c.isDigit = true)
    (h : value a = value b) : a = b := by
  have hab : ¬ a < b := by rw [lt_iff_value_lt hlength ha hb]; omega
  have hba : ¬ b < a := by rw [lt_iff_value_lt hlength.symm hb ha]; omega
  exact List.le_antisymm hba hab

theorem isDigit_of_mem_padded {width n : Nat} {c : Char} (h : c ∈ padded width n) :
    c.isDigit = true := by
  rcases List.mem_append.mp h with h | h
  · rw [List.eq_of_mem_replicate h]
    rfl
  · exact isDigit_of_mem_ofNat h

theorem le_length_padded (width n : Nat) : width ≤ (padded width n).length := by
  simp only [padded, List.length_append, List.length_replicate]
  omega

theorem padded_value {cs : List Char} (hne : cs ≠ []) (h : ∀ c ∈ cs, c.isDigit = true) :
    padded cs.length (value cs) = cs := by
  have hpos : 0 < cs.length := List.length_pos_iff.mpr hne
  exact eq_of_value_eq (length_padded (value_lt h) hpos)
    (fun c hc => isDigit_of_mem_padded hc) h (value_padded _ _)

theorem padded_lt_padded_iff {width m n : Nat} (hw : 0 < width) (hm : m < 10 ^ width)
    (hn : n < 10 ^ width) : padded width m < padded width n ↔ m < n := by
  have hlength : (padded width m).length = (padded width n).length := by
    rw [length_padded hm hw, length_padded hn hw]
  rw [lt_iff_value_lt hlength (fun c hc => isDigit_of_mem_padded hc)
    (fun c hc => isDigit_of_mem_padded hc), value_padded, value_padded]

end WatchHistory.Decimal
