import WatchHistory.Binary64
import WatchHistory.Partition
import WatchHistory.Payload.Event

/-!
# What an event adds

Events are cumulative: each observation of one tells its first and last time and how often it has
happened so far. An `EventDelta` is the part that the observation before did not tell.

* `EventDelta.ofObservations` is that part. It is taken with 64-bit differences, and
  `EventDelta.Overflows` is when one of them is not exact.
* `truncate` and `clampEnd` cut it at either end, with the share of the count that is left.
* `spread` divides the count among the minutes from one end to the other.
-/

set_option autoImplicit false

namespace WatchHistory

/-- A count of events from one instant to another. -/
structure EventDelta where
  first : Instant
  last : Instant
  count : Int
deriving DecidableEq

namespace EventDelta

/-- Nothing. -/
def zero : EventDelta := ⟨.epoch, .epoch, 0⟩

/-- Everything that an observation tells. -/
def ofInfo (e : EventInfo) : EventDelta := ⟨e.first, e.last, e.count⟩

/-- A length of time in seconds, as a binary64 number of whole milliseconds. -/
def inSeconds (nanos : Int) : Rat :=
  Binary64.nearest (Binary64.nearest (nanos.tdiv 1000000 : Int) / 1000)

/-- How often `current` tells what `previous` told already, where they overlap in part. The count of
`previous` is taken to be spread evenly. -/
def told (previous current : EventInfo) : Int :=
  Binary64.toInt (Binary64.nearest
    (Binary64.nearest (Binary64.nearest previous.count *
      inSeconds (previous.last.since current.first)) /
      inSeconds (previous.last.since previous.first)))

/-- The part of `current` that `previous` did not tell. Counts have 64 bits, so a difference that
`Overflows` is wrapped. This is arithmetic without overflow checks; with them, nothing is told and
the program stops there. -/
def ofObservations (previous : Option EventInfo) (current : EventInfo) : EventDelta :=
  match previous with
  | none => ofInfo current
  | some previous =>
    if previous.last < current.first then ofInfo current
    else if current.last ≤ previous.last then zero
    else if previous.first = current.first then
      let grown := Decimal.wrap (current.count - previous.count)
      if grown < 0 then zero else ⟨previous.last, current.last, grown⟩
    else if inSeconds (previous.last.since previous.first) ≤ 0 then zero
    else ⟨previous.last, current.last,
      max 0 (Decimal.wrap (current.count - told previous current))⟩

/-- Whether `ofObservations` takes a difference of counts that has more than 64 bits. -/
def Overflows (previous : Option EventInfo) (current : EventInfo) : Prop :=
  ∃ p ∈ previous, current.first ≤ p.last ∧ p.last < current.last ∧
    ((p.first = current.first ∧ Decimal.fits (current.count - p.count) = false) ∨
      (p.first ≠ current.first ∧ 0 < inSeconds (p.last.since p.first) ∧
        Decimal.fits (current.count - told p current) = false))

/-! ## Cutting -/

/-- The share `kept / total` of a count. A share of an interval too short to measure is beyond
every number, unless nothing is shared. -/
def share (count : Int) (kept total : Rat) : Int :=
  if total = 0 then
    if kept = 0 ∨ count = 0 then 0
    else if (0 < kept) = (0 < count) then Decimal.greatest
    else Decimal.least
  else
    Binary64.toInt (Binary64.nearest
      (Binary64.nearest count * Binary64.nearest (kept / total)))

/-- The delta from `start` on. -/
def truncate (d : EventDelta) (start : Instant) : EventDelta :=
  if start ≤ d.first then d
  else if d.last ≤ start then ⟨start, start, 0⟩
  else
    ⟨start, d.last,
      share d.count (inSeconds (d.last.since start)) (inSeconds (d.last.since d.first))⟩

/-- The delta up to `stop`. -/
def clampEnd (d : EventDelta) (stop : Instant) : EventDelta :=
  if d.last ≤ stop then d
  else if stop ≤ d.first then ⟨stop, stop, 0⟩
  else
    ⟨d.first, stop,
      share d.count (inSeconds (stop.since d.first)) (inSeconds (d.last.since d.first))⟩

/-- The earliest instant that may still be counted. In a store of one partition it is the start of
that one, and in a store of several the start of the second, so that nothing goes into the one that
is dropped next. -/
def truncationPoint (g : Granularity) (last : Instant) :
    Option (String × String) → Except StoreError Instant
  | none => return last.shift (-g.seconds)
  | some (min, max) =>
    if min = max then Partition.start min
    else do Partition.start (← g.next min)

/-! ## Spreading over minutes -/

/-- Divide a value into nearly equal parts, of which the first ones take what is left over. -/
def distribute (value : Int) (parts : Nat) : List Int :=
  (List.range parts).map fun (i : Nat) =>
    if (i : Int) < value.tmod parts then value.tdiv parts + 1 else value.tdiv parts

/-- The Unix second of the minute nearest to an instant; a half goes to the later one. -/
def nearestMinute (t : Instant) : Int :=
  let within := t.seconds % 60
  let floor := t.seconds - within
  if 30000000000 ≤ within * 1000000000 + t.nanos then floor + 60 else floor

/-- The count divided among the minutes from the one nearest to the first instant to the one
nearest to the last. Minutes that get nothing are left out. -/
def spread (d : EventDelta) : List (Int × Int) :=
  let first := nearestMinute d.first
  let last := nearestMinute d.last
  if d.count = 0 ∨ last < first then []
  else
    let counts := distribute d.count ((last - first) / 60 + 1).toNat
    (counts.zipIdx.map fun (count, (i : Nat)) => (first + 60 * (i : Int), count)).filter
      fun bucket => bucket.2 ≠ 0

end EventDelta

end WatchHistory
