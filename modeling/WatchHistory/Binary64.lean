import WatchHistory.Decimal

/-!
# Rounding to double precision

A finite number of the binary64 format is kept as the rational it stands for. Each operation on
such numbers is the exact one on rationals, followed by `nearest`.
-/

set_option autoImplicit false

namespace WatchHistory.Binary64

/-- The nearest integer; a half goes to the even neighbour. -/
def roundEven (q : Rat) : Int :=
  let below := q.floor
  let rest := q - below
  if rest < 1 / 2 then below
  else if 1 / 2 < rest then below + 1
  else if below % 2 = 0 then below
  else below + 1

def powerOfTwo (e : Int) : Rat :=
  if 0 ≤ e then (Nat.pow 2 e.toNat : Nat) else 1 / (Nat.pow 2 (-e).toNat : Nat)

/-- The exponent `e` with `2 ^ e ≤ |q| < 2 ^ (e + 1)`, for `q` other than zero. -/
def exponent (q : Rat) : Int :=
  let e : Int := (Nat.log2 q.num.natAbs : Int) - (Nat.log2 q.den : Int)
  if powerOfTwo e ≤ q.abs then e else e - 1

/-- The distance of the binary64 numbers around `q`, which have 53 significant bits and no bit
below `2 ^ (-1074)`. -/
def spacing (q : Rat) : Rat := powerOfTwo (max (exponent q - 52) (-1074))

/-- The binary64 number nearest to `q`; a tie goes to the one with an even last bit. The exponent
is not bounded above. -/
def nearest (q : Rat) : Rat :=
  if q = 0 then 0 else roundEven (q / spacing q) * spacing q

/-- Whether a rounded number lies beyond the largest finite one. -/
def overflows (q : Rat) : Bool := decide (powerOfTwo 1024 ≤ q.abs)

/-- The whole part of a number, toward zero. -/
def truncate (q : Rat) : Int := if q < 0 then -(-q).floor else q.floor

/-- The whole part of a number as a signed 64-bit integer: the nearer end of the range where the
whole part lies outside. -/
def toInt (q : Rat) : Int := min (max (truncate q) Decimal.least) Decimal.greatest

end WatchHistory.Binary64
