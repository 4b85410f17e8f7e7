import WatchHistory.Json.Literal

/-!
# Numerals of whole numbers

A whole number written as a numeral is taken back whole from the front of a text, as long as what
follows does not continue it (`Numeral.take?_render_ofInt`), and stands for the number if that fits
(`Numeral.int?_ofInt`).
-/

set_option autoImplicit false

namespace WatchHistory

namespace Decimal

theorem digitChar_ne_zero {n : Nat} (h : n ≠ 0) (h' : n < 10) : n.digitChar ≠ '0' := by
  revert h
  revert n
  decide

theorem head?_ofNat {n : Nat} (h : n ≠ 0) : (ofNat n).head? ≠ some '0' := by
  induction n using Nat.strongRecOn with
  | ind n ih =>
    unfold ofNat at *
    by_cases hn : n < 10
    · rw [Nat.toDigits_of_lt_base hn]
      simpa using digitChar_ne_zero h hn
    · rw [Nat.toDigits_of_base_le (by decide) (by omega)]
      have hne : Nat.toDigits 10 (n / 10) ≠ [] := Nat.toDigits_ne_nil
      rw [List.head?_append, Option.or_of_isSome (by simp [hne])]
      exact ih (n / 10) (by omega) (by omega)

theorem ofNat_ne_nil (n : Nat) : ofNat n ≠ [] := Nat.toDigits_ne_nil

end Decimal

namespace Json.Numeral

/-- What may stand behind a numeral without being taken for a part of it. -/
def Ends (rest : List Char) : Prop :=
  ∀ c, rest.head? = some c → c.isDigit = false ∧ c ≠ '.' ∧ c ≠ 'e' ∧ c ≠ 'E'

theorem ends_nil : Ends [] := by
  intro c hc
  simp at hc

theorem ends_cons {c : Char} {rest : List Char}
    (h : c.isDigit = false ∧ c ≠ '.' ∧ c ≠ 'e' ∧ c ≠ 'E') : Ends (c :: rest) := by
  intro d hd
  rw [List.head?_cons, Option.some.injEq] at hd
  exact hd ▸ h

theorem digits?_append {ds rest : List Char} (hne : ds ≠ []) (hd : ∀ c ∈ ds, c.isDigit = true)
    (hr : Ends rest) : digits? (ds ++ rest) = some (ds, rest) := by
  have htake : rest.takeWhile Char.isDigit = [] ∧ rest.dropWhile Char.isDigit = rest := by
    cases rest with
    | nil => simp
    | cons c cs => simp [(hr c rfl).1]
  unfold digits?
  rw [List.takeWhile_append_of_pos hd, List.dropWhile_append_of_pos hd, htake.1, htake.2]
  simp [hne]

theorem takeWhole?_ofNat (n : Nat) {rest : List Char} (hr : Ends rest) :
    takeWhole? (Decimal.ofNat n ++ rest) = some (Decimal.ofNat n, rest) := by
  by_cases hn : n = 0
  · subst hn
    rfl
  · have hdigits := digits?_append (Decimal.ofNat_ne_nil n)
      (fun c hc => Decimal.isDigit_of_mem_ofNat hc) hr
    have hhead := Decimal.head?_ofNat hn
    cases hds : Decimal.ofNat n with
    | nil => exact absurd hds (Decimal.ofNat_ne_nil n)
    | cons d ds =>
      rw [hds] at hdigits hhead
      rw [← hdigits]
      unfold takeWhole?
      split
      · next heq =>
        rw [List.cons_append, List.cons.injEq] at heq
        exact absurd (by simp [heq.1]) hhead
      · rfl

theorem takeFraction?_of_ends {rest : List Char} (hr : Ends rest) :
    takeFraction? rest = some (none, rest) := by
  unfold takeFraction?
  split
  · exact absurd rfl (hr '.' rfl).2.1
  · rfl

theorem takeExponent?_of_ends {rest : List Char} (hr : Ends rest) :
    takeExponent? rest = some (none, rest) := by
  cases rest with
  | nil => rfl
  | cons c cs =>
    obtain ⟨-, -, he, hE⟩ := hr c rfl
    simp [takeExponent?, he, hE]

/-- `take?` takes a written whole number back, up to what cannot continue it. -/
theorem take?_render_ofInt (i : Int) {rest : List Char} (hr : Ends rest) :
    take? ((ofInt i).render ++ rest) = some (ofInt i, rest) := by
  have hwhole := takeWhole?_ofNat i.natAbs hr
  have hfraction := takeFraction?_of_ends hr
  have hexponent := takeExponent?_of_ends hr
  by_cases hi : i < 0
  · simp [take?, render, ofInt, hi, hwhole, hfraction, hexponent]
  · have hhead : (Decimal.ofNat i.natAbs).head? ≠ some '-' := by
      intro h
      exact absurd (Decimal.isDigit_of_mem_ofNat (List.mem_of_mem_head? h)) (by decide)
    simp [take?, render, ofInt, hi, hwhole, hfraction, hexponent, hhead, Decimal.ofNat_ne_nil]

theorem fits_of_int? {n : Numeral} {i : Int} (h : n.int? = some i) : Decimal.fits i = true := by
  unfold int? at h
  split at h
  · cases h
  · split at h
    · split at h
      · cases h
      · exact (Option.filter_eq_some_iff.mp h).2
    · exact (Option.filter_eq_some_iff.mp h).2

theorem int?_ofInt (i : Int) : (ofInt i).int? = if Decimal.fits i then some i else none := by
  unfold int? ofInt
  simp only [Option.isSome_none, Bool.or_self, Bool.false_eq_true, if_false, Decimal.value_ofNat,
    decide_eq_true_eq, Option.filter_some]
  by_cases hi : i < 0
  · rw [if_pos hi, if_neg (by omega), show -(i.natAbs : Int) = i by omega]
  · rw [if_neg hi, show (i.natAbs : Int) = i by omega]

end Json.Numeral

end WatchHistory
