/-!
# Decimal numbers as text

Writing and reading whole numbers in base ten.

* `value_ofNat`: reading the digits of a number gives the number.
* `length_padded`: a padded number has exactly the width it is padded to, if its digits fit.
* `wrap` is what 64 bits hold of a number: the number itself, if it fits (`wrap_of_fits`).
-/

set_option autoImplicit false

namespace WatchHistory.Decimal

/-- The least number of a signed 64-bit field. -/
def least : Int := -9223372036854775808

/-- The greatest number of a signed 64-bit field. -/
def greatest : Int := 9223372036854775807

/-- The greatest number of an unsigned 64-bit field. -/
def greatestNat : Nat := 18446744073709551615

/-! ## Writing -/

/-- The digits of a number, without leading zeros. -/
def ofNat (n : Nat) : List Char := Nat.toDigits 10 n

/-- The digits of a number, after `-` if it is negative. -/
def ofInt (i : Int) : List Char := if i < 0 then '-' :: ofNat i.natAbs else ofNat i.natAbs

/-- The digits of a number, filled up with leading zeros to `width` characters. -/
def padded (width n : Nat) : List Char :=
  List.replicate (width - (ofNat n).length) '0' ++ ofNat n

/-- A number filled up with leading zeros to `width` characters, where a sign counts as one. -/
def paddedInt (width : Nat) (i : Int) : List Char :=
  if i < 0 then '-' :: padded (width - 1) i.natAbs else padded width i.natAbs

/-! ## Reading -/

/-- The number that a list of digits stands for. -/
def value (digits : List Char) : Nat := Nat.ofDigitChars 10 digits 0

/-- One or more digits. -/
def nat? (cs : List Char) : Option Nat :=
  if !cs.isEmpty && cs.all Char.isDigit then some (value cs) else none

/-- An optional `+` and one or more digits, up to `greatestNat`. -/
def word? (cs : List Char) : Option Nat :=
  let digits := match cs with
    | '+' :: rest => rest
    | _ => cs
  (nat? digits).filter (· ≤ greatestNat)

/-- Whether a number fits into a signed 64-bit field. -/
def fits (i : Int) : Bool := decide (least ≤ i) && decide (i ≤ greatest)

theorem fits_iff {i : Int} : fits i = true ↔ least ≤ i ∧ i ≤ greatest := by simp [fits]

theorem fits_sub {i j : Int} (hi : 0 ≤ i ∧ i ≤ greatest) (hj : 0 ≤ j ∧ j ≤ greatest) :
    fits (i - j) = true := by
  rw [fits_iff]
  unfold greatest at *
  unfold least
  omega

/-- What a signed 64-bit field holds of a number: the one that fits and differs from it by a
multiple of the `greatestNat + 1` values of the field. -/
def wrap (i : Int) : Int := i.bmod (greatestNat + 1)

theorem wrap_of_fits {i : Int} (h : fits i = true) : wrap i = i := by
  obtain ⟨hleast, hgreatest⟩ := fits_iff.mp h
  unfold least at hleast
  unfold greatest at hgreatest
  unfold wrap greatestNat
  exact Int.bmod_eq_of_le (by omega) (by omega)

/-- A number that is too large comes out smaller. -/
theorem wrap_le {i : Int} (h : least ≤ i) : wrap i ≤ i := by
  unfold least at h
  unfold wrap greatestNat Int.bmod
  dsimp only
  split <;> omega

/-- An optional sign and one or more digits, between `least` and `greatest`. -/
def int? (cs : List Char) : Option Int :=
  let number : Option Int := match cs with
    | '+' :: rest => (nat? rest).map Int.ofNat
    | '-' :: rest => (nat? rest).map fun n => -Int.ofNat n
    | _ => (nat? cs).map Int.ofNat
  number.filter fits

/-! ## Laws -/

theorem value_ofNat (n : Nat) : value (ofNat n) = n := Nat.ofDigitChars_ten_toDigits

theorem isDigit_of_mem_ofNat {n : Nat} {c : Char} (h : c ∈ ofNat n) : c.isDigit = true :=
  Nat.isDigit_of_mem_toDigits (by decide) (by decide) h

theorem nat?_eq_some_iff {cs : List Char} {n : Nat} :
    nat? cs = some n ↔ cs ≠ [] ∧ (∀ c ∈ cs, c.isDigit = true) ∧ value cs = n := by
  have hdigits : (!cs.isEmpty && cs.all Char.isDigit) = true ↔
      cs ≠ [] ∧ ∀ c ∈ cs, c.isDigit = true := by
    simp
  rw [nat?, Option.ite_none_right_eq_some, hdigits, Option.some.injEq, and_assoc]

theorem nat?_ofNat (n : Nat) : nat? (ofNat n) = some n :=
  nat?_eq_some_iff.mpr ⟨by simp [ofNat, Nat.toDigits_ne_nil], fun _ => isDigit_of_mem_ofNat,
    value_ofNat n⟩

/-- A number is read of digits, maybe behind a `+`. -/
theorem word?_eq_some_iff {cs : List Char} {n : Nat} :
    word? cs = some n ↔ ∃ sign digits, cs = sign ++ digits ∧ (sign = [] ∨ sign = ['+']) ∧
      nat? digits = some n ∧ n ≤ greatestNat := by
  unfold word?
  dsimp only
  rw [Option.filter_eq_some_iff, decide_eq_true_iff]
  constructor
  · rintro ⟨hn, hfits⟩
    split at hn
    · next rest => exact ⟨['+'], rest, rfl, .inr rfl, hn, hfits⟩
    · exact ⟨[], cs, rfl, .inl rfl, hn, hfits⟩
  · rintro ⟨sign, digits, rfl, rfl | rfl, hn, hfits⟩
    · refine ⟨?_, hfits⟩
      split
      · next rest hrest =>
        obtain rfl : digits = '+' :: rest := hrest
        exact absurd ((nat?_eq_some_iff.mp hn).2.1 '+' List.mem_cons_self) (by decide)
      · exact hn
    · exact ⟨hn, hfits⟩

theorem length_padded {width n : Nat} (h : n < Nat.pow 10 width) (hw : 0 < width) :
    (padded width n).length = width := by
  have := (Nat.length_toDigits_le_iff (b := 10) (by decide) hw).mpr h
  simp [padded, ofNat]
  omega

theorem value_padded (width n : Nat) : value (padded width n) = n := by
  unfold value padded
  rw [Nat.ofDigitChars_append, Nat.ofDigitChars_replicate_zero]
  simp [ofNat, Nat.ofDigitChars_ten_toDigits]

end WatchHistory.Decimal
