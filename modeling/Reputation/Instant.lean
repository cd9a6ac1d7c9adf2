/-!
# Instants and clocks

Time is counted in whole seconds. Sums stop at the greatest instant, and nothing is earlier than
zero: `Instant.since` is zero for an instant in the future. A `Clock` gives its readings in turn and
then repeats the last one.
-/

namespace Reputation

/-- **A point in time**, in seconds. -/
structure Instant where
  seconds : UInt64
deriving Repr, DecidableEq, Inhabited

namespace Instant

/-- The count nearest to a natural number. -/
def clamp (n : Nat) : UInt64 := UInt64.ofNat (min n (UInt64.size - 1))

/-- The first instant. -/
def zero : Instant := ⟨0⟩

/-- The instant some seconds later. -/
def addSeconds (t : Instant) (n : UInt64) : Instant := ⟨clamp (t.seconds.toNat + n.toNat)⟩

/-- The instant some hours later. -/
def addHours (t : Instant) (n : UInt64) : Instant := t.addSeconds (clamp (n.toNat * 3600))

/-- The seconds since an earlier instant. -/
def since (t earlier : Instant) : UInt64 := UInt64.ofNat (t.seconds.toNat - earlier.seconds.toNat)

/-- The order of instants. -/
def order (t u : Instant) : Ordering := compare t.seconds u.seconds

/-- The seconds with their unit. -/
def text (t : Instant) : String := toString t.seconds ++ "s"

end Instant

/-- **A clock**: the readings it is going to give, the last of which stays. -/
structure Clock where
  readings : List Instant
deriving Repr, Inhabited

namespace Clock

/-- The clock that shows one instant for ever. -/
def fixed (t : Instant) : Clock := ⟨[t]⟩

/-- The next reading, and the clock after it; a clock without readings shows zero. -/
def read : Clock → Instant × Clock
  | ⟨[]⟩ => (.zero, ⟨[]⟩)
  | ⟨[t]⟩ => (t, ⟨[t]⟩)
  | ⟨t :: u :: ts⟩ => (t, ⟨u :: ts⟩)

end Clock

end Reputation
