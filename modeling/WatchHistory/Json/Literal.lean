import WatchHistory.Decimal
import WatchHistory.Text.Hex

/-!
# String literals and numerals of JSON

A string literal is kept as it is written between its quotes. What is checked when it is taken
from a text is only that its escapes are well formed; whether it stands for a text at all is for
`Literal.decode?` to say, because an escaped half of a surrogate pair stands for none.

* `Literal.encode` is the written form of a text. `take?_encode`: it is taken back whole;
  `decode?_encode`: it stands for the text.
* `Numeral.take?` takes the longest numeral from the front of a text.
-/

set_option autoImplicit false

namespace WatchHistory.Json

namespace Literal

/-- The number written with four hexadecimal digits. -/
def hexUnit? (a b c d : Char) : Option Nat := do
  let high := (← Text.hexValue? a) * 16 + (← Text.hexValue? b)
  let low := (← Text.hexValue? c) * 16 + (← Text.hexValue? d)
  return high * 256 + low

/-- What a character after a backslash stands for, `u` apart. -/
def unescape? : Char → Option Char
  | '"' => some '"'
  | '\\' => some '\\'
  | '/' => some '/'
  | 'b' => some '\x08'
  | 'f' => some '\x0c'
  | 'n' => some '\n'
  | 'r' => some '\r'
  | 't' => some '\t'
  | _ => none

/-! ## Taking a literal from a text -/

/-- The characters up to the closing quote, behind those already `taken` in reverse, and the rest
of the text after the quote. -/
def takeFrom (taken : List Char) : List Char → Option (List Char × List Char)
  | [] => none
  | '"' :: cs => some (taken.reverse, cs)
  | '\\' :: 'u' :: a :: b :: c :: d :: cs =>
    if (hexUnit? a b c d).isSome then takeFrom (d :: c :: b :: a :: 'u' :: '\\' :: taken) cs
    else none
  | '\\' :: c :: cs => if (unescape? c).isSome then takeFrom (c :: '\\' :: taken) cs else none
  | c :: cs => if c.toNat < 0x20 then none else takeFrom (c :: taken) cs

/-- The literal whose opening quote has just been read, and the rest of the text. -/
def take? (cs : List Char) : Option (List Char × List Char) := takeFrom [] cs

theorem length_of_takeFrom {taken cs literal rest : List Char}
    (h : takeFrom taken cs = some (literal, rest)) : rest.length ≤ cs.length := by
  fun_induction takeFrom taken cs with
  | case1 => simp at h
  | case2 => simp_all
  | case3 taken a b c d cs hx ih => simpa using Nat.le_trans (ih h) (by omega)
  | case4 => simp at h
  | case5 taken c cs _ hx ih => simpa using Nat.le_trans (ih h) (by omega)
  | case6 => simp at h
  | case7 => simp at h
  | case8 taken c cs _ _ _ hx ih => simpa using Nat.le_trans (ih h) (by omega)

/-- What is left after a literal is no longer than the text. -/
theorem length_of_take? {cs literal rest : List Char} (h : take? cs = some (literal, rest)) :
    rest.length ≤ cs.length :=
  length_of_takeFrom h

/-! ## Reading a literal -/

/-- Add a character to what has been read so far. -/
def decodeFrom (done : List Char) : List Char → Option (List Char)
  | [] => some done.reverse
  | '\\' :: 'u' :: a :: b :: c :: d :: cs =>
    match hexUnit? a b c d with
    | none => none
    | some unit =>
      if 0xdc00 ≤ unit ∧ unit ≤ 0xdfff then none
      else if 0xd800 ≤ unit ∧ unit ≤ 0xdbff then
        match cs with
        | '\\' :: 'u' :: e :: f :: g :: h :: cs =>
          match hexUnit? e f g h with
          | none => none
          | some low =>
            if 0xdc00 ≤ low ∧ low ≤ 0xdfff then
              let code := 0x10000 + (unit - 0xd800) * 0x400 + (low - 0xdc00)
              decodeFrom (Char.ofNat code :: done) cs
            else none
        | _ => none
      else decodeFrom (Char.ofNat unit :: done) cs
  | '\\' :: c :: cs =>
    match unescape? c with
    | none => none
    | some d => decodeFrom (d :: done) cs
  | c :: cs => decodeFrom (c :: done) cs

/-- The text that a literal stands for; none if it escapes a surrogate outside a pair. -/
def decode? (literal : List Char) : Option String := (decodeFrom [] literal).map String.ofList

/-! ## Writing a literal -/

/-- The letter that stands for a character behind a backslash, where there is one. -/
def letter? : Char → Option Char
  | '"' => some '"'
  | '\\' => some '\\'
  | '\x08' => some 'b'
  | '\x0c' => some 'f'
  | '\n' => some 'n'
  | '\r' => some 'r'
  | '\t' => some 't'
  | _ => none

/-- Quotes, backslashes and control characters are escaped, by a letter if they have one. -/
def encodeChar (c : Char) : List Char :=
  match letter? c with
  | some letter => ['\\', letter]
  | none =>
    if c.toNat < 0x20 then
      ['\\', 'u', '0', '0', Text.hexDigit (c.toNat / 16), Text.hexDigit (c.toNat % 16)]
    else [c]

/-- The literal of a text, without the quotes. -/
def encode (text : String) : List Char := text.toList.flatMap encodeChar

/-! ## Writing and reading -/

theorem ne_of_letter?_eq_none {c : Char} (h : letter? c = none) : c ≠ '"' ∧ c ≠ '\\' := by
  constructor <;> rintro rfl <;> simp [letter?] at h

theorem hexUnit?_control {n : Nat} (h : n < 0x20) :
    hexUnit? '0' '0' (Text.hexDigit (n / 16)) (Text.hexDigit (n % 16)) = some n := by
  revert n
  decide

theorem takeFrom_letter {c letter : Char} (h : letter? c = some letter) (taken cs : List Char) :
    takeFrom taken ('\\' :: letter :: cs) = takeFrom (letter :: '\\' :: taken) cs := by
  unfold letter? at h
  split at h <;> cases h <;> rfl

theorem takeFrom_plain {c : Char} (h : letter? c = none) (hc : ¬ c.toNat < 0x20)
    (taken cs : List Char) : takeFrom taken (c :: cs) = takeFrom (c :: taken) cs := by
  obtain ⟨hq, hb⟩ := ne_of_letter?_eq_none h
  rw [takeFrom.eq_def]
  split <;> grind

theorem takeFrom_encodeChar (c : Char) (taken cs : List Char) :
    takeFrom taken (encodeChar c ++ cs) = takeFrom ((encodeChar c).reverse ++ taken) cs := by
  unfold encodeChar
  split
  · next h => exact takeFrom_letter h taken cs
  · next h =>
    split
    · next hc => simp [takeFrom, hexUnit?_control hc]
    · next hc => exact takeFrom_plain h hc taken cs

theorem takeFrom_flatMap (s taken rest : List Char) :
    takeFrom taken (s.flatMap encodeChar ++ '"' :: rest) =
      some (taken.reverse ++ s.flatMap encodeChar, rest) := by
  induction s generalizing taken with
  | nil => simp [takeFrom]
  | cons c s ih =>
    rw [List.flatMap_cons, List.append_assoc, takeFrom_encodeChar, ih]
    simp

/-- A written literal is taken back whole, up to its closing quote. -/
theorem take?_encode (text : String) (rest : List Char) :
    take? (encode text ++ '"' :: rest) = some (encode text, rest) :=
  takeFrom_flatMap text.toList [] rest

theorem decodeFrom_letter {c letter : Char} (h : letter? c = some letter) (done cs : List Char) :
    decodeFrom done ('\\' :: letter :: cs) = decodeFrom (c :: done) cs := by
  unfold letter? at h
  split at h <;> cases h <;> rfl

theorem decodeFrom_plain {c : Char} (h : c ≠ '\\') (done cs : List Char) :
    decodeFrom done (c :: cs) = decodeFrom (c :: done) cs := by
  rw [decodeFrom.eq_def]
  split <;> simp_all

theorem decodeFrom_control {c : Char} (h : c.toNat < 0x20) (done cs : List Char) :
    decodeFrom done ('\\' :: 'u' :: '0' :: '0' :: Text.hexDigit (c.toNat / 16) ::
      Text.hexDigit (c.toNat % 16) :: cs) = decodeFrom (c :: done) cs := by
  have hlow : ¬ (0xdc00 ≤ c.toNat ∧ c.toNat ≤ 0xdfff) := by omega
  have hhigh : ¬ (0xd800 ≤ c.toNat ∧ c.toNat ≤ 0xdbff) := by omega
  simp [decodeFrom, hexUnit?_control h, hlow, hhigh, Char.ofNat_toNat]

theorem decodeFrom_encodeChar (c : Char) (done cs : List Char) :
    decodeFrom done (encodeChar c ++ cs) = decodeFrom (c :: done) cs := by
  unfold encodeChar
  split
  · next h => exact decodeFrom_letter h done cs
  · next h =>
    split
    · next hc => exact decodeFrom_control hc done cs
    · exact decodeFrom_plain (ne_of_letter?_eq_none h).2 done cs

theorem decodeFrom_flatMap (s done : List Char) :
    decodeFrom done (s.flatMap encodeChar) = some (done.reverse ++ s) := by
  induction s generalizing done with
  | nil => simp [decodeFrom]
  | cons c s ih =>
    rw [List.flatMap_cons, decodeFrom_encodeChar, ih]
    simp

/-- A written literal stands for the text that it was written from. -/
theorem decode?_encode (text : String) : decode? (encode text) = some text := by
  unfold decode? encode
  rw [decodeFrom_flatMap]
  simp

end Literal

/-! ## Numerals -/

/-- A number as it is written. -/
structure Numeral where
  negative : Bool
  /-- The digits before the point. -/
  whole : List Char
  /-- The digits after the point, if there is one. -/
  fraction : Option (List Char)
  /-- Whether the exponent is negative, and its digits. -/
  exponent : Option (Bool × List Char)
deriving DecidableEq

namespace Numeral

/-- The digits at the front of a text, at least one, and the rest of it. -/
def digits? (cs : List Char) : Option (List Char × List Char) :=
  if (cs.takeWhile Char.isDigit).isEmpty then none
  else some (cs.takeWhile Char.isDigit, cs.dropWhile Char.isDigit)

/-- The digits before the point: a zero alone, or any number of digits that do not start with
one. -/
def takeWhole? : List Char → Option (List Char × List Char)
  | '0' :: cs => some (['0'], cs)
  | cs => digits? cs

def takeFraction? : List Char → Option (Option (List Char) × List Char)
  | '.' :: cs => (digits? cs).map fun r => (some r.1, r.2)
  | cs => some (none, cs)

/-- Whether an exponent is negative, and the rest of the text. -/
def exponentSign : List Char → Bool × List Char
  | '-' :: cs => (true, cs)
  | '+' :: cs => (false, cs)
  | cs => (false, cs)

def takeExponent? : List Char → Option (Option (Bool × List Char) × List Char)
  | [] => some (none, [])
  | c :: cs =>
    if c = 'e' ∨ c = 'E' then
      (digits? (exponentSign cs).2).map fun r => (some ((exponentSign cs).1, r.1), r.2)
    else some (none, c :: cs)

/-- The numeral at the front of a text and the rest of it. -/
def take? (cs : List Char) : Option (Numeral × List Char) := do
  let negative := cs.head? = some '-'
  let (whole, cs) ← takeWhole? (if negative then cs.tail else cs)
  let (fraction, cs) ← takeFraction? cs
  let (exponent, cs) ← takeExponent? cs
  return (⟨negative, whole, fraction, exponent⟩, cs)

theorem length_of_digits? {cs ds rest : List Char} (h : digits? cs = some (ds, rest)) :
    rest.length < cs.length := by
  unfold digits? at h
  cases cs with
  | nil => simp at h
  | cons c cs =>
    by_cases hc : c.isDigit = true
    · simp only [List.takeWhile_cons_of_pos hc, List.dropWhile_cons_of_pos hc, List.isEmpty_cons,
        Bool.false_eq_true, if_false, Option.some.injEq, Prod.mk.injEq] at h
      exact h.2 ▸ Nat.lt_succ_of_le (List.dropWhile_suffix Char.isDigit).length_le
    · simp [List.takeWhile_cons_of_neg hc] at h

theorem length_of_takeWhole? {cs whole rest : List Char}
    (h : takeWhole? cs = some (whole, rest)) : rest.length < cs.length := by
  unfold takeWhole? at h
  split at h
  · simp_all
  · exact length_of_digits? h

theorem length_of_takeFraction? {cs rest : List Char} {fraction : Option (List Char)}
    (h : takeFraction? cs = some (fraction, rest)) : rest.length ≤ cs.length := by
  unfold takeFraction? at h
  split at h
  · obtain ⟨⟨_, _⟩, hd, hr⟩ := Option.map_eq_some_iff.mp h
    cases hr
    exact Nat.le_succ_of_le (Nat.le_of_lt (length_of_digits? hd))
  · simp_all

theorem length_exponentSign (cs : List Char) : (exponentSign cs).2.length ≤ cs.length := by
  unfold exponentSign
  split <;> simp

theorem length_of_takeExponent? {cs rest : List Char} {exponent : Option (Bool × List Char)}
    (h : takeExponent? cs = some (exponent, rest)) : rest.length ≤ cs.length := by
  unfold takeExponent? at h
  split at h
  · simp_all
  · next c cs =>
    split at h
    · obtain ⟨⟨_, _⟩, hd, hr⟩ := Option.map_eq_some_iff.mp h
      cases hr
      have := length_of_digits? hd
      have := length_exponentSign cs
      simp only [List.length_cons]
      omega
    · simp_all

/-- A numeral has at least one character. -/
theorem length_of_take? {cs rest : List Char} {n : Numeral} (h : take? cs = some (n, rest)) :
    rest.length < cs.length := by
  simp only [take?, Option.bind_eq_bind, Option.bind_eq_some_iff, Prod.exists, Option.pure_def,
    Option.some.injEq, Prod.mk.injEq] at h
  obtain ⟨whole, cs₁, h₁, fraction, cs₂, h₂, exponent, cs₃, h₃, _, rfl⟩ := h
  have h₁ := length_of_takeWhole? h₁
  have h₂ := length_of_takeFraction? h₂
  have h₃ := length_of_takeExponent? h₃
  split at h₁
  · simp only [List.length_tail] at h₁
    omega
  · omega

/-- The numeral of a whole number. -/
def ofInt (i : Int) : Numeral := ⟨i < 0, Decimal.ofNat i.natAbs, none, none⟩

/-- The signed 64-bit number that a numeral is, if it has neither fraction nor exponent and is not
a negative zero. -/
def int? (n : Numeral) : Option Int :=
  if n.fraction.isSome || n.exponent.isSome then none
  else if n.negative then
    if Decimal.value n.whole = 0 then none
    else some (-(Decimal.value n.whole : Int)) |>.filter Decimal.fits
  else some (Decimal.value n.whole : Int) |>.filter Decimal.fits

/-- The written form. -/
def render (n : Numeral) : List Char :=
  (if n.negative then ['-'] else []) ++ n.whole ++
    (match n.fraction with
      | none => []
      | some ds => '.' :: ds) ++
    (match n.exponent with
      | none => []
      | some (negative, ds) => 'e' :: (if negative then ['-'] else []) ++ ds)

end Numeral

end WatchHistory.Json
