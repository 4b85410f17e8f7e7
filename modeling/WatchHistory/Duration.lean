import WatchHistory.Decimal
import WatchHistory.Text.Blank

/-!
# Lengths of time

A `Duration` is a whole number of nanoseconds. `read?` reads what a configuration says, such as
`500ms`, `30s` or `14d`, and `text` is how a message shows one.
-/

set_option autoImplicit false

namespace WatchHistory

/-- A length of time in nanoseconds. -/
structure Duration where
  nanos : Nat
deriving DecidableEq

namespace Duration

def ofSeconds (n : Nat) : Duration := ⟨n * 1000000000⟩

def ofMillis (n : Nat) : Duration := ⟨n * 1000000⟩

/-- The whole seconds. -/
def seconds (d : Duration) : Nat := d.nanos / 1000000000

/-- The nanoseconds beyond the whole seconds. -/
def subsecond (d : Duration) : Nat := d.nanos % 1000000000

/-- A number of units of `unit` seconds each, where the number of seconds has 64 bits. -/
def ofUnits? (number : List Char) (unit : Nat) : Option Duration :=
  ((Decimal.word? number).filter fun n => n * unit ≤ Decimal.greatestNat).map fun n =>
    ofSeconds (n * unit)

/-- Read a number with one of the units `ms`, `s`, `m`, `h` and `d`; without a unit it counts
seconds. -/
def read? (text : String) : Option Duration :=
  match (Text.trim text.toList).reverse with
  | 's' :: 'm' :: number => (Decimal.word? number.reverse).map ofMillis
  | 's' :: number => ofUnits? number.reverse 1
  | 'm' :: number => ofUnits? number.reverse 60
  | 'h' :: number => ofUnits? number.reverse 3600
  | 'd' :: number => ofUnits? number.reverse 86400
  | number => ofUnits? number.reverse 1

/-- A number of thousandths, millionths and so on after a point, without zeros at the end. -/
def pointText (places n : Nat) : List Char :=
  match ((Decimal.padded places n).reverse.dropWhile (· = '0')).reverse with
  | [] => []
  | digits => '.' :: digits

/-- The length in the largest unit of which it has a whole one. -/
def text (d : Duration) : String := String.ofList <|
  if 1000000000 ≤ d.nanos then Decimal.ofNat d.seconds ++ pointText 9 d.subsecond ++ ['s']
  else if 1000000 ≤ d.nanos then
    Decimal.ofNat (d.nanos / 1000000) ++ pointText 6 (d.nanos % 1000000) ++ ['m', 's']
  else if 1000 ≤ d.nanos then
    Decimal.ofNat (d.nanos / 1000) ++ pointText 3 (d.nanos % 1000) ++ ['µ', 's']
  else Decimal.ofNat d.nanos ++ ['n', 's']

end Duration

end WatchHistory
