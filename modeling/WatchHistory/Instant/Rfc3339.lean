import WatchHistory.Calendar
import WatchHistory.Decimal
import WatchHistory.Instant.Basic
import WatchHistory.Text.Blank

/-!
# Instants as RFC 3339 text

`read?` accepts the form of RFC 3339 and nothing else. `readLoosely?` also allows blanks between
the parts, shorter numbers, signed and longer years and `UTC` for the zone. `write` is the written
form: as many fraction digits as needed in groups of three, and a sign on years outside 0..9999.
-/

set_option autoImplicit false

namespace WatchHistory.Rfc3339

/-- What a text says about an instant: a local date and time of day, and the zone's distance from
UTC in seconds. -/
structure Reading where
  date : Calendar.Date
  hour : Nat
  minute : Nat
  second : Nat
  nanos : Nat
  offset : Int

/-- The instant that a reading names, if its date and time exist and are representable. The second
60 is the leap second after 59. -/
def Reading.instant? (r : Reading) : Option Instant :=
  if r.date.isValid && decide (-262143 ≤ r.date.year) && decide (r.date.year ≤ 262142) &&
      decide (r.hour ≤ 23) && decide (r.minute ≤ 59) && decide (r.second ≤ 60) &&
      decide (r.offset.natAbs < 86400) then
    let time := r.hour * 3600 + r.minute * 60 + min r.second 59
    Instant.of? (r.date.toDays * 86400 + time - r.offset)
      (r.nanos + if r.second = 60 then billion else 0)
  else none

/-! ## Parts of a text

Each reader takes its part from the front of the text and gives the rest. -/

/-- As many digits as there are, at least `least` and at most `most`. -/
def number (least most : Nat) (cs : List Char) : Option (Nat × List Char) :=
  let digits := (cs.take most).takeWhile Char.isDigit
  if digits.length < least then none else some (Decimal.value digits, cs.drop digits.length)

/-- One given character. -/
def literal (c : Char) : List Char → Option (List Char)
  | [] => none
  | d :: cs => if d = c then some cs else none

/-- The character between date and time. -/
def separator : List Char → Option (List Char)
  | c :: cs => if c = 'T' || c = 't' || c = ' ' then some cs else none
  | [] => none

/-- The nanoseconds after a point, of which digits after the ninth are dropped, or none without a
point. -/
def fraction : List Char → Option (Nat × List Char)
  | '.' :: cs =>
    let digits := cs.takeWhile Char.isDigit
    if digits.isEmpty then none
    else
      let kept := digits.take 9
      some (Decimal.value kept * Nat.pow 10 (9 - kept.length), cs.drop digits.length)
  | cs => some (0, cs)

/-- `Z`, or a sign, two digits of hours, what `colon` accepts and two digits of minutes. -/
def zone (colon : List Char → Option (List Char)) : List Char → Option (Int × List Char)
  | [] => none
  | c :: cs =>
    if c = 'Z' || c = 'z' then some (0, cs)
    else if c = '+' || c = '-' || c = '\u2212' then do
      let (hours, cs) ← number 2 2 cs
      let cs ← colon cs
      let (minutes, cs) ← number 2 2 cs
      if minutes ≤ 59 then
        let seconds : Int := hours * 3600 + minutes * 60
        some (if c = '+' then seconds else -seconds, cs)
      else none
    else none

/-! ## Reading -/

/-- The instant of an RFC 3339 text. -/
def read? (text : String) : Option Instant := do
  let (year, cs) ← number 4 4 text.toList
  let cs ← literal '-' cs
  let (month, cs) ← number 2 2 cs
  let cs ← literal '-' cs
  let (day, cs) ← number 2 2 cs
  let cs ← separator cs
  let (hour, cs) ← number 2 2 cs
  let cs ← literal ':' cs
  let (minute, cs) ← number 2 2 cs
  let cs ← literal ':' cs
  let (second, cs) ← number 2 2 cs
  let (nanos, cs) ← fraction cs
  let (offset, cs) ← zone (literal ':') cs
  if cs.isEmpty then
    Reading.instant? ⟨⟨year, month, day⟩, hour, minute, second, nanos, offset⟩
  else none

/-- A year: up to four digits, or any number of them after a sign. -/
def looseYear (cs : List Char) : Option (Int × List Char) :=
  match Text.trimStart cs with
  | '-' :: cs => (number 1 cs.length cs).map fun r => (-(r.1 : Int), r.2)
  | '+' :: cs => (number 1 cs.length cs).map fun r => ((r.1 : Int), r.2)
  | cs => (number 1 4 cs).map fun r => ((r.1 : Int), r.2)

/-- One or two digits after any blanks. -/
def looseNumber (cs : List Char) : Option (Nat × List Char) := number 1 2 (Text.trimStart cs)

/-- One given character after any blanks. -/
def looseLiteral (c : Char) (cs : List Char) : Option (List Char) := literal c (Text.trimStart cs)

/-- Any colons and blanks. -/
def looseColon (cs : List Char) : Option (List Char) :=
  some (cs.dropWhile fun c => c = ':' || Text.isBlank c)

/-- A zone, or `UTC` in any case. -/
def looseZone (cs : List Char) : Option (Int × List Char) :=
  if (cs.take 3).map Char.toUpper = ['U', 'T', 'C'] then some (0, cs.drop 3)
  else zone looseColon cs

/-- The instant of a text that is RFC 3339 up to blanks and the length of its numbers. -/
def readLoosely? (text : String) : Option Instant := do
  let (year, cs) ← looseYear text.toList
  let cs ← looseLiteral '-' cs
  let (month, cs) ← looseNumber cs
  let cs ← looseLiteral '-' cs
  let (day, cs) ← looseNumber cs
  let cs ← separator cs
  let (hour, cs) ← looseNumber cs
  let cs ← looseLiteral ':' cs
  let (minute, cs) ← looseNumber cs
  let cs ← looseLiteral ':' cs
  let (second, cs) ← looseNumber cs
  let (nanos, cs) ← fraction cs
  let (offset, cs) ← looseZone (Text.trimStart cs)
  if (Text.trimStart cs).isEmpty then
    Reading.instant? ⟨⟨year, month, day⟩, hour, minute, second, nanos, offset⟩
  else none

/-! ## Writing -/

/-- Four digits, with a sign and more digits where the year needs them. -/
def yearText (year : Int) : List Char :=
  if 0 ≤ year ∧ year ≤ 9999 then Decimal.padded 4 year.natAbs
  else (if year < 0 then '-' else '+') :: Decimal.padded 4 year.natAbs

/-- The shortest of 0, 3, 6 and 9 fraction digits that tells the nanoseconds. -/
def fractionText (nanos : Nat) : List Char :=
  if nanos = 0 then []
  else if nanos % 1000000 = 0 then '.' :: Decimal.padded 3 (nanos / 1000000)
  else if nanos % 1000 = 0 then '.' :: Decimal.padded 6 (nanos / 1000)
  else '.' :: Decimal.padded 9 nanos

/-- The text of an instant in UTC, with `zone` for the name of the zone. -/
def write (zone : List Char) (t : Instant) : List Char :=
  let date := Calendar.Date.ofDays (t.seconds / 86400)
  let time := t.secondOfDay.toNat
  let second := time % 60 + if t.isLeap then 1 else 0
  yearText date.year ++ '-' :: Decimal.padded 2 date.month ++ '-' :: Decimal.padded 2 date.day ++
    'T' :: Decimal.padded 2 (time / 3600) ++ ':' :: Decimal.padded 2 (time / 60 % 60) ++
    ':' :: Decimal.padded 2 second ++ fractionText (t.nanos % billion) ++ zone

end WatchHistory.Rfc3339
