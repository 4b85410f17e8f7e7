import WatchHistory.Binary64
import WatchHistory.Json.Tree
import WatchHistory.SortedMap

/-!
# JSON values by meaning

A `Value` forgets how a JSON text is written: texts are decoded, numbers are evaluated, and the
members of an object are sorted by name, of repeated ones the last. So two texts say the same if
and only if their values are equal, where

* whole numbers of at most 64 bits are exact, and every other number is a binary64 one;
* a whole number never equals a binary64 one, and a negative zero counts as the latter.
-/

set_option autoImplicit false

namespace WatchHistory.Json

/-! ## Numbers -/

inductive Number
  | whole (n : Int)
  | double (q : Rat)
deriving DecidableEq

namespace Number

/-- The digits that fit into 64 bits, read from the front: their number, and how many digits are
left. -/
def significand (n : Nat) : List Char → Nat × Nat
  | [] => (n, 0)
  | c :: cs =>
    let next := n * 10 + (c.toNat - '0'.toNat)
    if next ≤ Decimal.greatestNat then significand next cs else (n, cs.length + 1)

/-- The binary64 number nearest to a power of ten. -/
def powerOfTen (n : Nat) : Rat := Binary64.nearest (Nat.pow 10 n : Nat)

/-- Divide by ten to the `-exponent`, by at most 308 powers at a time, or multiply by ten to the
`exponent`. Every step is rounded; it fails where the number becomes infinite. -/
def scale? (q : Rat) (exponent : Int) : Option Rat :=
  if h : exponent < -308 then
    if q = 0 then some 0
    else scale? (Binary64.nearest (q / powerOfTen 308)) (exponent + 308)
  else if exponent < 0 then
    some (Binary64.nearest (q / powerOfTen (-exponent).toNat))
  else if exponent ≤ 308 then
    let product := Binary64.nearest (q * powerOfTen exponent.toNat)
    if Binary64.overflows product then none else some product
  else if q = 0 then some 0 else none
termination_by (-exponent).toNat
decreasing_by omega

/-- The number of the given digits before and after the point, times ten to the `exponent`. Digits
that do not fit count as zeros. -/
def double? (negative : Bool) (whole fraction : List Char) (exponent : Int) : Option Number :=
  let (n, dropped) := significand 0 whole
  let (n, unread) := significand n fraction
  let places := fraction.length - unread
  (scale? (Binary64.nearest n) (dropped - places + exponent)).map fun q =>
    double (if negative then -q else q)

/-- The number that a numeral stands for; none if it is too large for a binary64 number. -/
def ofNumeral? (n : Numeral) : Option Number :=
  let magnitude := Decimal.value n.whole
  match n.fraction, n.exponent with
  | none, none =>
    if n.negative then
      if magnitude = 0 then some (double 0)
      else if (magnitude : Int) ≤ -Decimal.least then some (whole (-magnitude))
      else double? true n.whole [] 0
    else if magnitude ≤ Decimal.greatestNat then some (whole magnitude)
    else double? false n.whole [] 0
  | fraction, exponent =>
    let power : Int := match exponent with
      | none => 0
      | some (negative, ds) => if negative then -(Decimal.value ds : Int) else Decimal.value ds
    double? n.negative n.whole (fraction.getD []) power

end Number

/-! ## Values -/

inductive Value
  | null
  | bool (value : Bool)
  | number (value : Number)
  | text (value : String)
  | array (items : List Value)
  /-- The members of an object, ascending by name. -/
  | object (members : List (String × Value))

mutual

/-- How deeply arrays and objects are nested. -/
def depth : Json → Nat
  | .array items => itemsDepth items + 1
  | .object members => membersDepth members + 1
  | _ => 0

def itemsDepth : List Json → Nat
  | [] => 0
  | j :: js => max (depth j) (itemsDepth js)

def membersDepth : List (List Char × Json) → Nat
  | [] => 0
  | (_, j) :: ms => max (depth j) (membersDepth ms)

end

mutual

/-- The value of a tree; none if a text or a number in it has none. -/
def evaluate? : Json → Option Value
  | .null => some .null
  | .bool b => some (.bool b)
  | .number n => (Number.ofNumeral? n).map .number
  | .text literal => (Literal.decode? literal).map .text
  | .array items => (evaluateItems? items).map .array
  | .object members => (evaluateMembers? members []).map .object

def evaluateItems? : List Json → Option (List Value)
  | [] => some []
  | j :: js => do return (← evaluate? j) :: (← evaluateItems? js)

/-- Put the members among the `earlier` ones. -/
def evaluateMembers? : List (List Char × Json) → List (String × Value) →
    Option (List (String × Value))
  | [], earlier => some earlier
  | (name, j) :: ms, earlier => do
    let name ← Literal.decode? name
    let value ← evaluate? j
    evaluateMembers? ms (SortedMap.insertEntry name value earlier)

end

namespace Value

/-- The deepest nesting that is read as a value. -/
def maxDepth : Nat := 127

/-- Read a JSON text by meaning. -/
def read? (text : String) : Option Value := do
  let j ← Json.read? text
  if j.depth ≤ maxDepth then j.evaluate? else none

/-! ## Equality -/

mutual

def decEq : (a b : Value) → Decidable (a = b)
  | .null, .null => isTrue rfl
  | .bool a, .bool b => if h : a = b then isTrue (h ▸ rfl) else isFalse (by simpa using h)
  | .number a, .number b => if h : a = b then isTrue (h ▸ rfl) else isFalse (by simpa using h)
  | .text a, .text b => if h : a = b then isTrue (h ▸ rfl) else isFalse (by simpa using h)
  | .array a, .array b =>
    match decEqItems a b with
    | isTrue h => isTrue (h ▸ rfl)
    | isFalse h => isFalse (by simpa using h)
  | .object a, .object b =>
    match decEqMembers a b with
    | isTrue h => isTrue (h ▸ rfl)
    | isFalse h => isFalse (by simpa using h)
  | .null, .bool _ | .null, .number _ | .null, .text _ | .null, .array _ | .null, .object _
  | .bool _, .null | .bool _, .number _ | .bool _, .text _ | .bool _, .array _
  | .bool _, .object _ | .number _, .null | .number _, .bool _ | .number _, .text _
  | .number _, .array _ | .number _, .object _ | .text _, .null | .text _, .bool _
  | .text _, .number _ | .text _, .array _ | .text _, .object _ | .array _, .null
  | .array _, .bool _ | .array _, .number _ | .array _, .text _ | .array _, .object _
  | .object _, .null | .object _, .bool _ | .object _, .number _ | .object _, .text _
  | .object _, .array _ => isFalse nofun

def decEqItems : (a b : List Value) → Decidable (a = b)
  | [], [] => isTrue rfl
  | a :: as, b :: bs =>
    match decEq a b, decEqItems as bs with
    | isTrue h, isTrue h' => isTrue (h ▸ h' ▸ rfl)
    | isFalse h, _ => isFalse (by simp [h])
    | _, isFalse h => isFalse (by simp [h])
  | [], _ :: _ | _ :: _, [] => isFalse nofun

def decEqMembers : (a b : List (String × Value)) → Decidable (a = b)
  | [], [] => isTrue rfl
  | (m, a) :: as, (n, b) :: bs =>
    if hn : m = n then
      match decEq a b, decEqMembers as bs with
      | isTrue h, isTrue h' => isTrue (hn ▸ h ▸ h' ▸ rfl)
      | isFalse h, _ => isFalse (by simp [h])
      | _, isFalse h => isFalse (by simp [h])
    else isFalse (by simp [hn])
  | [], _ :: _ | _ :: _, [] => isFalse nofun

end

instance : DecidableEq Value := decEq

/-! ## Members -/

/-- The value without the member `name`, if it is an object. -/
def without (name : String) : Value → Value
  | object members => object (members.filter fun m => m.1 ≠ name)
  | v => v

/-- The value with its member `name` changed, if it is an object that has one. -/
def changeMember (name : String) (change : Value → Value) : Value → Value
  | object members => object (members.map fun m => if m.1 = name then (m.1, change m.2) else m)
  | v => v

/-- The value with every item changed, if it is an array. -/
def changeItems (change : Value → Value) : Value → Value
  | array items => array (items.map change)
  | v => v

end Value

end WatchHistory.Json
