import WatchHistory.Order

/-!
# Instants

An `Instant` is a number of Unix seconds and of nanoseconds within that second. A leap second is
told as the last second of its minute with a thousand million nanoseconds or more, so instants are
ordered by seconds and then by nanoseconds.

* `of?` accepts exactly the representable instants.
* `shift` moves an instant by whole seconds, and `since` is the time between two instants.
-/

set_option autoImplicit false

namespace WatchHistory

/-- Nanoseconds in a second. -/
def billion : Nat := 1000000000

/-- A point in time between the years -262143 and 262142. -/
structure Instant where
  /-- Seconds since 1970-01-01T00:00:00Z, leap seconds not counted. -/
  seconds : Int
  /-- Nanoseconds since the start of the second; a leap second goes beyond `billion`. -/
  nanos : Nat
  first_le : -8334601228800 ≤ seconds
  le_last : seconds ≤ 8210266876799
  nanos_lt : nanos < 2000000000
  leap_second : 1000000000 ≤ nanos → seconds % 60 = 59
deriving DecidableEq

namespace Instant

/-- The instant of the given seconds and nanoseconds, if there is one. -/
def of? (seconds : Int) (nanos : Nat) : Option Instant :=
  if h : (-8334601228800 ≤ seconds ∧ seconds ≤ 8210266876799) ∧ nanos < 2000000000 ∧
      (1000000000 ≤ nanos → seconds % 60 = 59) then
    some ⟨seconds, nanos, h.1.1, h.1.2, h.2.1, h.2.2⟩
  else none

/-- The start of a second, if it is representable. -/
def ofSeconds? (seconds : Int) : Option Instant := of? seconds 0

/-- 1970-01-01T00:00:00Z. -/
def epoch : Instant := ⟨0, 0, by decide, by decide, by decide, by decide⟩

instance : Inhabited Instant := ⟨epoch⟩

theorem ext {a b : Instant} (hs : a.seconds = b.seconds) (hn : a.nanos = b.nanos) : a = b := by
  cases a; cases b; cases hs; cases hn; rfl

theorem of?_eq_some_iff {seconds : Int} {nanos : Nat} {t : Instant} :
    of? seconds nanos = some t ↔ t.seconds = seconds ∧ t.nanos = nanos := by
  unfold of?
  split
  · simp only [Option.some.injEq]
    exact ⟨fun h => h ▸ ⟨rfl, rfl⟩, fun h => ext h.1.symm h.2.symm⟩
  · next h =>
    refine ⟨nofun, fun ⟨hs, hn⟩ => absurd ?_ h⟩
    subst hs hn
    exact ⟨⟨t.first_le, t.le_last⟩, t.nanos_lt, t.leap_second⟩

@[simp] theorem of?_seconds_nanos (t : Instant) : of? t.seconds t.nanos = some t :=
  of?_eq_some_iff.mpr ⟨rfl, rfl⟩

/-! ## Order -/

/-- Instants are ordered by seconds and then by nanoseconds. -/
instance : StrictOrder Instant :=
  @StrictOrder.pullback _ _ (StrictOrder.lex Int Nat) (fun t => (t.seconds, t.nanos))
    fun {a b} h => by
      injection h with hs hn
      exact ext hs hn

instance : LE Instant := ⟨fun a b => ¬ b < a⟩

instance (a b : Instant) : Decidable (a ≤ b) := inferInstanceAs (Decidable (¬ b < a))

/-- The later of two instants. -/
def latest (a b : Instant) : Instant := if a < b then b else a

/-! ## Arithmetic -/

def isLeap (t : Instant) : Bool := billion ≤ t.nanos

/-- Nanoseconds since the epoch. -/
def totalNanos (t : Instant) : Int := t.seconds * 1000000000 + t.nanos

/-- The instant `n` nanoseconds after the epoch, if it is representable. -/
def ofNanos? (n : Int) : Option Instant := of? (n / 1000000000) (n % 1000000000).toNat

/-- The instant of a second outside a leap second, moved to the nearer end of the representable
span if it lies outside. -/
def clamped (seconds : Int) (nanos : Nat) (h : nanos < billion) : Instant where
  seconds := max (-8334601228800) (min 8210266876799 seconds)
  nanos := nanos
  first_le := by omega
  le_last := by omega
  nanos_lt := by unfold billion at h; omega
  leap_second := by unfold billion at h; omega

/-- Move an instant by whole seconds. A leap second counts as one second on the way back and as
none on the way forward. -/
def shift (t : Instant) (delta : Int) : Instant :=
  if delta = 0 then t
  else if h : t.nanos < billion then clamped (t.seconds + delta) t.nanos h
  else clamped (t.seconds + delta + if delta < 0 then 1 else 0) (t.nanos - billion) (by
    have := t.nanos_lt
    unfold billion at h ⊢
    omega)

/-- Seconds since midnight. -/
def secondOfDay (t : Instant) : Int := t.seconds % 86400

/-- The nanoseconds from `b` to `a`. Of two different times of day, the earlier one being within a
leap second makes the distance one second longer. -/
def since (a b : Instant) : Int :=
  let leap : Int :=
    if b.secondOfDay < a.secondOfDay then (if b.isLeap then 1 else 0)
    else if a.secondOfDay < b.secondOfDay then (if a.isLeap then -1 else 0)
    else 0
  (a.seconds - b.seconds + leap) * 1000000000 + ((a.nanos : Int) - b.nanos)

end Instant

end WatchHistory
