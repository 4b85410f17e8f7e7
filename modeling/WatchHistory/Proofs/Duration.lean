import WatchHistory.Duration
import WatchHistory.Proofs.Text.Blank

/-!
# Lengths of time that are read

What `Duration.read?` reads is a number of units with blanks around it, and nothing else
(`Duration.read?_iff_tells`). A number that does not fit into 64 bits is refused, and so is one
whose seconds do not.
-/

set_option autoImplicit false

namespace WatchHistory

/-- The units in which a length of time is told. -/
inductive TimeUnit
  | millisecond
  | second
  | minute
  | hour
  | day
deriving DecidableEq

namespace TimeUnit

def symbol : TimeUnit → List Char
  | millisecond => ['m', 's']
  | second => ['s']
  | minute => ['m']
  | hour => ['h']
  | day => ['d']

/-- Nanoseconds in a unit. -/
def nanos : TimeUnit → Nat
  | millisecond => 1000000
  | second => 1000000000
  | minute => 60 * 1000000000
  | hour => 3600 * 1000000000
  | day => 86400 * 1000000000

/-- The whole seconds in a unit. -/
def seconds (u : TimeUnit) : Nat := u.nanos / 1000000000

theorem seconds_mul {u : TimeUnit} (h : u ≠ millisecond) : u.seconds * 1000000000 = u.nanos := by
  cases u with
  | millisecond => exact absurd rfl h
  | _ => simp [seconds, nanos]

/-- Whether the unit is meant by what stands behind a number. Without a symbol it is the second. -/
def MeantBy (u : TimeUnit) (symbol : List Char) : Prop :=
  symbol = u.symbol ∨ symbol = [] ∧ u = second

theorem MeantBy.isBlank_eq_false {u : TimeUnit} {symbol : List Char} (h : u.MeantBy symbol) :
    ∀ c ∈ symbol, Text.isBlank c = false := by
  rcases h with rfl | ⟨rfl, -⟩
  · cases u <;> simp [symbol, Text.isBlank, Text.blankRanges]
  · simp

end TimeUnit

namespace Duration

/-- Whether a text tells a number of units: digits, maybe with a `+` before and a symbol behind
them, between blanks. -/
def Tells (text : List Char) (number : Nat) (unit : TimeUnit) : Prop :=
  ∃ before sign digits symbol after, text = before ++ (sign ++ digits ++ symbol) ++ after ∧
    (∀ c ∈ before, Text.isBlank c = true) ∧ (∀ c ∈ after, Text.isBlank c = true) ∧
    (sign = [] ∨ sign = ['+']) ∧ digits ≠ [] ∧ (∀ c ∈ digits, c.isDigit = true) ∧
    number = Decimal.value digits ∧ unit.MeantBy symbol

theorem tells_iff_trim {text : List Char} {number : Nat} {unit : TimeUnit} :
    Tells text number unit ↔ ∃ sign digits symbol, Text.trim text = sign ++ digits ++ symbol ∧
      (sign = [] ∨ sign = ['+']) ∧ Decimal.nat? digits = some number ∧ unit.MeantBy symbol := by
  simp only [Decimal.nat?_eq_some_iff]
  constructor
  · rintro ⟨before, sign, digits, symbol, after, rfl, hbefore, hafter, hsign, hne, hdigit, rfl,
      hsymbol⟩
    have hplain : ∀ c ∈ sign ++ digits ++ symbol, Text.isBlank c = false := by
      intro c hc
      rcases List.mem_append.mp hc with hc | hc
      · rcases List.mem_append.mp hc with hc | hc
        · rcases hsign with rfl | rfl
          · cases hc
          · rw [List.mem_singleton.mp hc]; decide
        · exact Text.isBlank_of_isDigit (hdigit c hc)
      · exact hsymbol.isBlank_eq_false c hc
    exact ⟨sign, digits, symbol, Text.trim_blanks hbefore hafter (by simp [hne]) hplain, hsign,
      ⟨hne, hdigit, rfl⟩, hsymbol⟩
  · rintro ⟨sign, digits, symbol, htrim, hsign, ⟨hne, hdigit, hvalue⟩, hsymbol⟩
    obtain ⟨before, after, htext, hbefore, hafter⟩ := Text.exists_blanks_trim text
    exact ⟨before, sign, digits, symbol, after, htrim ▸ htext, hbefore, hafter, hsign, hne, hdigit,
      hvalue.symm, hsymbol⟩

/-- Whether a number of units fits into 64 bits, and the seconds in them unless the unit is
less. -/
structure Fits (number : Nat) (unit : TimeUnit) : Prop where
  number_le : number ≤ Decimal.greatestNat
  seconds_le : unit ≠ .millisecond → number * unit.seconds ≤ Decimal.greatestNat

/-- Read a number of units. -/
def ofNumber? (number : List Char) : TimeUnit → Option Duration
  | .millisecond => (Decimal.word? number).map ofMillis
  | unit => ofUnits? number unit.seconds

theorem ofUnits?_eq_some_iff {number : List Char} {seconds : Nat} {d : Duration} :
    ofUnits? number seconds = some d ↔ ∃ n, Decimal.word? number = some n ∧
      n * seconds ≤ Decimal.greatestNat ∧ d = ⟨n * (seconds * 1000000000)⟩ := by
  simp only [ofUnits?, Option.map_eq_some_iff, Option.filter_eq_some_iff, decide_eq_true_iff,
    ofSeconds, Nat.mul_assoc, and_assoc, @eq_comm _ d]

theorem ofNumber?_eq_some_iff {number : List Char} {unit : TimeUnit} {d : Duration} :
    ofNumber? number unit = some d ↔ ∃ n, Decimal.word? number = some n ∧ Fits n unit ∧
      d = ⟨n * unit.nanos⟩ := by
  have hword : ∀ {n}, Decimal.word? number = some n → n ≤ Decimal.greatestNat := fun h => by
    obtain ⟨-, -, -, -, -, hle⟩ := Decimal.word?_eq_some_iff.mp h
    exact hle
  by_cases hunit : unit = .millisecond
  · subst hunit
    simp only [ofNumber?, Option.map_eq_some_iff]
    refine exists_congr fun n => and_congr_right fun hn => ?_
    exact ⟨fun h => ⟨⟨hword hn, (absurd rfl ·)⟩, h.symm⟩, fun h => h.2.symm⟩
  · have hread : ofNumber? number unit = ofUnits? number unit.seconds := by
      cases unit with
      | millisecond => exact absurd rfl hunit
      | _ => rfl
    rw [hread, ofUnits?_eq_some_iff, TimeUnit.seconds_mul hunit]
    refine exists_congr fun n => and_congr_right fun hn => and_congr_left fun _ => ?_
    exact ⟨fun h => ⟨hword hn, fun _ => h⟩, fun h => h.seconds_le hunit⟩

theorem exists_read?_eq (text : String) :
    ∃ number symbol unit, Text.trim text.toList = number ++ symbol ∧
      TimeUnit.MeantBy unit symbol ∧ read? text = ofNumber? number unit := by
  have htrim : ∀ (symbol : List Char) {rest : List Char},
      (Text.trim text.toList).reverse = symbol.reverse ++ rest →
        Text.trim text.toList = rest.reverse ++ symbol := fun symbol rest h => by
    rw [← List.reverse_reverse (Text.trim text.toList), h, List.reverse_append,
      List.reverse_reverse]
  unfold read?
  split
  · next number h => exact ⟨_, _, .millisecond, htrim ['m', 's'] h, .inl rfl, rfl⟩
  · next number _ h => exact ⟨_, _, .second, htrim ['s'] h, .inl rfl, rfl⟩
  · next number h => exact ⟨_, _, .minute, htrim ['m'] h, .inl rfl, rfl⟩
  · next number h => exact ⟨_, _, .hour, htrim ['h'] h, .inl rfl, rfl⟩
  · next number h => exact ⟨_, _, .day, htrim ['d'] h, .inl rfl, rfl⟩
  · exact ⟨_, _, .second, htrim [] rfl, .inr ⟨rfl, rfl⟩, rfl⟩

/-- `read?` splits a text behind its last digit, where the symbol of the unit starts. -/
theorem read?_eq_ofNumber? {text : String} {sign digits symbol : List Char} {number : Nat}
    {unit : TimeUnit} (htrim : Text.trim text.toList = sign ++ digits ++ symbol)
    (hdigits : Decimal.nat? digits = some number) (hsymbol : unit.MeantBy symbol) :
    read? text = ofNumber? (sign ++ digits) unit := by
  obtain ⟨hne, hdigit, -⟩ := Decimal.nat?_eq_some_iff.mp hdigits
  obtain ⟨front, c, rfl⟩ : ∃ front c, digits = front ++ [c] :=
    ⟨_, _, (List.dropLast_concat_getLast hne).symm⟩
  have hc : c.isDigit = true := hdigit c (by simp)
  have hm : c ≠ 'm' := by rintro rfl; exact absurd hc (by decide)
  have hs : c ≠ 's' := by rintro rfl; exact absurd hc (by decide)
  have hh : c ≠ 'h' := by rintro rfl; exact absurd hc (by decide)
  have hd : c ≠ 'd' := by rintro rfl; exact absurd hc (by decide)
  unfold read?
  rw [htrim]
  rcases hsymbol with rfl | ⟨rfl, rfl⟩
  · cases unit <;> simp [TimeUnit.symbol, hm, ofNumber?, TimeUnit.seconds, TimeUnit.nanos]
  · simp [hm, hs, hh, hd, ofNumber?, TimeUnit.seconds, TimeUnit.nanos]

/-- **What a length of time is read of.** A text is read exactly if it `Tells` a number of units
that `Fits`, and then as that many of them. -/
theorem read?_iff_tells {text : String} {d : Duration} :
    read? text = some d ↔ ∃ number unit, Tells text.toList number unit ∧ Fits number unit ∧
      d = ⟨number * unit.nanos⟩ := by
  constructor
  · intro h
    obtain ⟨number, symbol, unit, htrim, hsymbol, hread⟩ := exists_read?_eq text
    obtain ⟨n, hn, hfits, hd⟩ := ofNumber?_eq_some_iff.mp (hread ▸ h)
    obtain ⟨sign, digits, rfl, hsign, hdigits, -⟩ := Decimal.word?_eq_some_iff.mp hn
    exact ⟨n, unit, tells_iff_trim.mpr ⟨sign, digits, symbol, htrim, hsign, hdigits, hsymbol⟩,
      hfits, hd⟩
  · rintro ⟨number, unit, htells, hfits, hd⟩
    obtain ⟨sign, digits, symbol, htrim, hsign, hdigits, hsymbol⟩ := tells_iff_trim.mp htells
    have hword : Decimal.word? (sign ++ digits) = some number :=
      Decimal.word?_eq_some_iff.mpr ⟨sign, digits, rfl, hsign, hdigits, hfits.number_le⟩
    rw [read?_eq_ofNumber? htrim hdigits hsymbol, ofNumber?_eq_some_iff]
    exact ⟨number, hword, hfits, hd⟩

example : read? "\t+090m " = some ⟨5400000000000⟩ := by decide +kernel

/-- `2^64` seconds are less than this many days. -/
example : read? "213503982334602d" = none := by decide +kernel

end Duration

end WatchHistory
