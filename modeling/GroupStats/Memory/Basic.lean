import GroupStats.Error

/-!
# Byte accounting

A `Reservation` is a byte budget: the bytes in use never pass its ceiling, because a claim
that would pass it fails and changes nothing. A `Context` counts what one owner claimed
through a reservation, so that the owner can give everything back when it is torn down; a
`Pool` is a reservation together with the one context a session claims through.

A release never gives back more than was claimed: the reservation stops at zero, and a
context releases at most its own use. Closing a context returns its whole use, and reports
a nonzero use as a leak.
-/

namespace GroupStats

namespace Memory

/-- A byte budget: `used` bytes are claimed under a fixed `ceiling`. -/
structure Reservation where
  ceiling : UInt64
  used : UInt64 := 0
  deriving DecidableEq, Repr

namespace Reservation

/-- The bytes that can still be claimed. -/
def available (r : Reservation) : UInt64 := if r.used ≤ r.ceiling then r.ceiling - r.used else 0

/-- Claims bytes, failing without a change when the use would pass the ceiling. -/
def claim (r : Reservation) (bytes : UInt64) : Except Error Reservation :=
  if r.used.toNat + bytes.toNat ≤ r.ceiling.toNat then .ok { r with used := r.used + bytes }
  else .error (.outOfMemory bytes r.available)

/-- Gives back bytes; the use stops at zero. -/
def release (r : Reservation) (bytes : UInt64) : Reservation :=
  { r with used := r.used - min r.used bytes }

theorem claim_ok_used {r r' : Reservation} {bytes : UInt64} (h : r.claim bytes = .ok r') :
    r'.used.toNat = r.used.toNat + bytes.toNat := by
  unfold claim at h
  split at h
  · cases h
    have : r.ceiling.toNat < 2 ^ 64 := r.ceiling.toNat_lt
    simp only [UInt64.toNat_add]
    omega
  · cases h

end Reservation

/-- The bytes one owner claimed through a reservation and has not given back. -/
structure Context where
  used : UInt64 := 0
  deriving DecidableEq, Repr

/-- A reservation with the context a session claims through. -/
structure Pool where
  reservation : Reservation
  context : Context := {}
  deriving DecidableEq, Repr

namespace Pool

/-- A pool with nothing claimed. -/
def create (ceiling : UInt64) : Pool := { reservation := { ceiling } }

/-- The bytes in use in the reservation. -/
def used (p : Pool) : UInt64 := p.reservation.used

/-- The bytes the context holds. -/
def held (p : Pool) : UInt64 := p.context.used

/-- Claims bytes through the context. -/
def claim (p : Pool) (bytes : UInt64) : Except Error Pool := do
  let r ← p.reservation.claim bytes
  pure { reservation := r, context := ⟨p.context.used + bytes⟩ }

/-- Gives back bytes through the context, at most what it holds. -/
def release (p : Pool) (bytes : UInt64) : Pool :=
  let given := min p.context.used bytes
  { reservation := p.reservation.release given, context := ⟨p.context.used - given⟩ }

/-- Gives back everything the context holds; what it still held is a leak. -/
def close (p : Pool) : Pool × Except Error Unit :=
  let held := p.context.used
  if held = 0 then (p, .ok ())
  else ({ reservation := p.reservation.release held, context := {} }, .error (.memoryLeak held))

/-- Claims bytes for the length of a computation that cannot fail. -/
def during (p : Pool) (bytes : UInt64) (value : α) : Except Error α := do
  let _ ← p.claim bytes
  pure value

theorem claim_ok_held {p p' : Pool} {bytes : UInt64} (h : p.claim bytes = .ok p') :
    p'.held = p.held + bytes := by
  unfold claim at h
  cases hr : p.reservation.claim bytes with
  | error e => simp [hr, bind, Except.bind] at h
  | ok r =>
    simp only [hr, bind, Except.bind, pure, Except.pure, Except.ok.injEq] at h
    subst h
    rfl

end Pool

end Memory

end GroupStats
