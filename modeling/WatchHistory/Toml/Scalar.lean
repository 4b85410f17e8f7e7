import WatchHistory.Calendar
import WatchHistory.Decimal
import WatchHistory.Text.Hex
import WatchHistory.Toml.Basic

/-!
# Texts, numbers and times of TOML

Each reader takes its part from the front of a text and gives the rest.
-/

set_option autoImplicit false

namespace WatchHistory.Toml

/-! ## Characters -/

def isSpace (c : Char) : Bool := c = ' ' || c = '\t'

/-- A character that may stand in a comment or a literal text: no control character but the tab. -/
def isPlain (c : Char) : Bool :=
  c = '\t' || (0x20 ≤ c.toNat && c.toNat ≤ 0x7e) || 0x80 ≤ c.toNat

/-- The rest of a text after a line end. -/
def lineEnd? : List Char → Option (List Char)
  | '\n' :: cs => some cs
  | '\r' :: '\n' :: cs => some cs
  | _ => none

def skipSpace (cs : List Char) : List Char := cs.dropWhile isSpace

/-! ## Texts -/

/-- The character of a code point, which must not be a surrogate. -/
def charOfCode? (code : Nat) : Option Char :=
  if h : code.isValidChar then some (Char.ofNatAux code h) else none

/-- The character written with exactly `n` hexadecimal digits. -/
def unicode? (n : Nat) (cs : List Char) : Option (Char × List Char) := do
  if (cs.take n).length < n then none
  let digits ← (cs.take n).mapM Text.hexValue?
  return (← charOfCode? (digits.foldl (fun code d => code * 16 + d) 0), cs.drop n)

/-- What stands after a backslash. -/
def escape? : List Char → Option (Char × List Char)
  | 'b' :: cs => some ('\x08', cs)
  | 't' :: cs => some ('\t', cs)
  | 'n' :: cs => some ('\n', cs)
  | 'f' :: cs => some ('\x0c', cs)
  | 'r' :: cs => some ('\r', cs)
  | '"' :: cs => some ('"', cs)
  | '\\' :: cs => some ('\\', cs)
  | 'u' :: cs => unicode? 4 cs
  | 'U' :: cs => unicode? 8 cs
  | _ => none

/-- A text between quotes on one line, from after the first quote. With `fuel` for every
character, a text that has an end is read to it. -/
def basicText? : (fuel : Nat) → (done : List Char) → List Char → Option (String × List Char)
  | 0, _, _ => none
  | _ + 1, _, [] => none
  | fuel + 1, done, c :: cs =>
    if c = '"' then some (String.ofList done.reverse, cs)
    else if c = '\\' then do
      let (d, cs) ← escape? cs
      basicText? fuel (d :: done) cs
    else if isPlain c then basicText? fuel (c :: done) cs
    else none

/-- A text between apostrophes on one line, from after the first one. -/
def literalText? (cs : List Char) : Option (String × List Char) :=
  let body := cs.takeWhile fun c => isPlain c && c ≠ '\''
  match cs.drop body.length with
  | '\'' :: rest => some (String.ofList body, rest)
  | _ => none

/-- What a run of quotes does to a text of several lines: up to two belong to the text, and with
three more they end it. -/
def closingQuotes (quote : Char) (cs : List Char) : Nat × List Char :=
  ((cs.takeWhile (· = quote)).length, cs.dropWhile (· = quote))

/-- A text from its first character that is neither a blank nor part of a line end. -/
def skipBlankLines : List Char → List Char
  | [] => []
  | '\n' :: cs => skipBlankLines cs
  | '\r' :: '\n' :: cs => skipBlankLines cs
  | c :: cs => if isSpace c then skipBlankLines cs else c :: cs

/-- What is left after a backslash that ends a line: the blanks and line ends behind it, at least
one line end, belong to the fold. -/
def foldedLine? (cs : List Char) : Option (List Char) :=
  (lineEnd? (skipSpace cs)).map skipBlankLines

/-- A text of several lines between three quotes, from after the first three. `escapes` tells
whether a backslash escapes. -/
def longText? (quote : Char) (escapes : Bool) :
    (fuel : Nat) → (done : List Char) → List Char → Option (String × List Char)
  | 0, _, _ => none
  | _ + 1, _, [] => none
  | fuel + 1, done, c :: cs =>
    if c = quote then
      let (n, rest) := closingQuotes quote (c :: cs)
      if n < 3 then longText? quote escapes fuel (List.replicate n quote ++ done) rest
      else if n ≤ 5 then
        some (String.ofList (List.replicate (n - 3) quote ++ done).reverse, rest)
      else none
    else if c = '\\' && escapes then
      match foldedLine? cs with
      | some rest => longText? quote escapes fuel done rest
      | none => do
        let (d, cs) ← escape? cs
        longText? quote escapes fuel (d :: done) cs
    else
      match lineEnd? (c :: cs) with
      | some rest => longText? quote escapes fuel ('\n' :: done) rest
      | none => if isPlain c then longText? quote escapes fuel (c :: done) cs else none

/-- The text after three quotes without the line end right behind them. -/
def skipFirstLineEnd (cs : List Char) : List Char := (lineEnd? cs).getD cs

/-- A text in any of the four forms. -/
def quotedText? : List Char → Option (String × List Char)
  | '"' :: '"' :: '"' :: cs => longText? '"' true (cs.length + 1) [] (skipFirstLineEnd cs)
  | '"' :: cs => basicText? (cs.length + 1) [] cs
  | '\'' :: '\'' :: '\'' :: cs => longText? '\'' false (cs.length + 1) [] (skipFirstLineEnd cs)
  | '\'' :: cs => literalText? cs
  | _ => none

/-! ## Numbers -/

/-- One or more digits with single underscores between them: the digits, and the rest. -/
def digits? (isDigit : Char → Bool) : List Char → Option (List Char × List Char)
  | [] => none
  | [c] => if isDigit c then some ([c], []) else none
  | c :: d :: cs =>
    if !isDigit c then none
    else if d = '_' then (digits? isDigit cs).map fun r => (c :: r.1, r.2)
    else if isDigit d then (digits? isDigit (d :: cs)).map fun r => (c :: r.1, r.2)
    else some ([c], d :: cs)

/-- Whether a number is negative, and the rest after its sign. -/
def sign : List Char → Bool × List Char
  | '-' :: cs => (true, cs)
  | '+' :: cs => (false, cs)
  | cs => (false, cs)

/-- A decimal number without leading zeros. -/
def decimal? : List Char → Option (List Char × List Char)
  | '0' :: cs => some (['0'], cs)
  | cs => digits? Char.isDigit cs

/-- An integer of 64 bits. -/
def fit (value : Int) : Option Toml := if Decimal.fits value then some (.integer value) else none

/-- The digits of a number with the given base. -/
def based? (base : Nat) (cs : List Char) : Option (Toml × List Char) := do
  let isDigit := fun c => match Text.hexValue? c with
    | some d => decide (d < base)
    | none => false
  let (ds, rest) ← digits? isDigit cs
  let value := ds.foldl (fun n c => n * base + (Text.hexValue? c).getD 0) 0
  return (← fit value, rest)

def integer? : List Char → Option (Toml × List Char)
  | '0' :: 'x' :: cs => based? 16 cs
  | '0' :: 'o' :: cs => based? 8 cs
  | '0' :: 'b' :: cs => based? 2 cs
  | cs => do
    let (negative, cs) := sign cs
    let (ds, rest) ← decimal? cs
    let value : Int := Decimal.value ds
    return (← fit (if negative then -value else value), rest)

/-- The part of a float after the point, or none without a point. -/
def fraction? : List Char → Option (List Char × List Char)
  | '.' :: cs => digits? Char.isDigit cs
  | cs => some ([], cs)

/-- The exponent of a float, or zero without one. -/
def exponent? : List Char → Option (Int × List Char)
  | c :: cs =>
    if c = 'e' || c = 'E' then do
      let (negative, cs) := sign cs
      let (ds, rest) ← digits? Char.isDigit cs
      let value : Int := Decimal.value ds
      return (if negative then -value else value, rest)
    else some (0, c :: cs)
  | [] => some (0, [])

/-- Half a unit in the last place above the greatest binary64 number. -/
def floatLimit : Nat := Nat.pow 2 1024 - Nat.pow 2 970

/-- Whether a number, the digits before and after the point times ten to the exponent, is too large
for a float. -/
def isHuge (whole fraction : List Char) (exponent : Int) : Bool :=
  let digits := (whole ++ fraction).dropWhile (· = '0')
  let scale := exponent - fraction.length
  if digits.isEmpty then false
  else if digits.length + scale < 300 then false
  else if 320 < digits.length + scale then true
  else if 0 ≤ scale then decide (floatLimit ≤ Decimal.value digits * Nat.pow 10 scale.toNat)
  else decide (floatLimit * Nat.pow 10 (-scale).toNat ≤ Decimal.value digits)

/-- A number with a fraction or an exponent, not too large, or one of the special floats. -/
def float? (cs : List Char) : Option (Toml × List Char) :=
  let (negative, cs) := sign cs
  if "inf".toList.isPrefixOf cs || "nan".toList.isPrefixOf cs then some (.float, cs.drop 3)
  else do
    let (whole, afterWhole) ← decimal? cs
    let (fraction, afterFraction) ← fraction? afterWhole
    let (exponent, rest) ← exponent? afterFraction
    if rest.length = afterWhole.length then none
    if !negative && isHuge whole fraction exponent then none
    return (.float, rest)

/-! ## Times -/

/-- A number of exactly `width` digits between two bounds. -/
def field? (width low high : Nat) (cs : List Char) : Option (Nat × List Char) :=
  let ds := cs.take width
  if ds.length = width && ds.all Char.isDigit && low ≤ Decimal.value ds &&
      Decimal.value ds ≤ high then
    some (Decimal.value ds, cs.drop width)
  else none

/-- The rest of a text after one given character. -/
def afterChar? (c : Char) : List Char → Option (List Char)
  | d :: cs => if d = c then some cs else none
  | [] => none

/-- A date of the calendar. -/
def date? (cs : List Char) : Option (List Char) := do
  let (year, cs) ← field? 4 0 9999 cs
  let (month, cs) ← field? 2 1 12 (← afterChar? '-' cs)
  let (day, cs) ← field? 2 1 31 (← afterChar? '-' cs)
  if (Calendar.Date.mk year month day).isValid then some cs else none

/-- A time of day with an optional fraction of a second. -/
def timeOfDay? (cs : List Char) : Option (List Char) := do
  let (_, cs) ← field? 2 0 23 cs
  let (_, cs) ← field? 2 0 59 (← afterChar? ':' cs)
  let (_, cs) ← field? 2 0 60 (← afterChar? ':' cs)
  match cs with
  | '.' :: rest =>
    if (rest.head?.map Char.isDigit).getD false then some (rest.dropWhile Char.isDigit)
    else some cs
  | _ => some cs

/-- The zone of a time, where there is one. -/
def zone (cs : List Char) : List Char :=
  match cs with
  | [] => []
  | c :: rest =>
    if c = 'Z' || c = 'z' then rest
    else if c = '+' || c = '-' then
      (do
        let (_, rest) ← field? 2 0 23 rest
        let (_, rest) ← field? 2 0 59 (← afterChar? ':' rest)
        return rest).getD cs
    else cs

/-- A date, a time of day, or both with an optional zone. -/
def time? (cs : List Char) : Option (List Char) :=
  match date? cs with
  | none => timeOfDay? cs
  | some afterDate =>
    match afterDate with
    | [] => some []
    | c :: rest =>
      if c = 'T' || c = 't' || c = ' ' then
        match timeOfDay? rest with
        | some afterTime => some (zone afterTime)
        | none => some afterDate
      else some afterDate

/-- A number or a time. -/
def numberOrTime? (cs : List Char) : Option (Toml × List Char) :=
  match time? cs with
  | some rest => some (.time, rest)
  | none => (float? cs).orElse fun _ => integer? cs

end WatchHistory.Toml
