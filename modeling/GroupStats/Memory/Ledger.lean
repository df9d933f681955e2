import GroupStats.Memory.Basic
import GroupStats.Step

/-!
# Ledgers of contexts and held claims

A `Ledger` is one reservation with any number of contexts over it, and the claims held
against those contexts. A held claim is given back exactly once: the first time it is
dropped. Contexts and held claims are numbered in the order they were made; a claim that
fails gets no number.
-/

namespace GroupStats

namespace Memory

/-- Bytes held against a context until the claim is dropped. -/
structure Claim where
  context : Nat
  bytes : UInt64
  live : Bool := true
  deriving DecidableEq, Repr

/-- A reservation, its contexts, and the claims held against them. -/
structure Ledger where
  reservation : Reservation
  contexts : List Context := []
  claims : List Claim := []
  deriving DecidableEq, Repr

namespace Ledger

/-- A ledger with nothing claimed and no context. -/
def create (ceiling : UInt64) : Ledger := { reservation := { ceiling } }

/-- The pool seen through context `i`. -/
def pool (l : Ledger) (i : Nat) : Pool := ⟨l.reservation, l.contexts.getD i {}⟩

/-- Writes back the pool seen through context `i`. -/
def setPool (l : Ledger) (i : Nat) (p : Pool) : Ledger :=
  { l with reservation := p.reservation, contexts := l.contexts.set i p.context }

/-- The bytes each context holds, in the order the contexts were made. -/
def holdings (l : Ledger) : List UInt64 := l.contexts.map (·.used)

/-- Claims bytes from the reservation itself. -/
def claim (l : Ledger) (bytes : UInt64) : Except Error Ledger :=
  (fun r => { l with reservation := r }) <$> l.reservation.claim bytes

/-- Gives bytes back to the reservation itself. -/
def release (l : Ledger) (bytes : UInt64) : Ledger :=
  { l with reservation := l.reservation.release bytes }

/-- Adds a context and gives its number. -/
def addContext (l : Ledger) : Ledger × Nat :=
  ({ l with contexts := l.contexts ++ [{}] }, l.contexts.length)

/-- Claims bytes through context `i`. -/
def claimIn (l : Ledger) (i : Nat) (bytes : UInt64) : Except Error Ledger :=
  l.setPool i <$> (l.pool i).claim bytes

/-- Gives bytes back through context `i`. -/
def releaseIn (l : Ledger) (i : Nat) (bytes : UInt64) : Ledger :=
  l.setPool i ((l.pool i).release bytes)

/-- Closes context `i`, giving back all it holds. -/
def closeContext (l : Ledger) (i : Nat) : Ledger × Except Error Unit :=
  let (p, r) := (l.pool i).close
  (l.setPool i p, r)

/-- Holds a claim of bytes against context `i` and gives its number. -/
def hold (l : Ledger) (i : Nat) (bytes : UInt64) : Except Error (Ledger × Nat) := do
  let l' ← l.claimIn i bytes
  pure ({ l' with claims := l'.claims ++ [{ context := i, bytes }] }, l.claims.length)

/-- Drops held claim `n`: its bytes go back through its context the first time only. -/
def drop (l : Ledger) (n : Nat) : Ledger :=
  match l.claims[n]? with
  | some c =>
    if c.live then
      let l' := l.releaseIn c.context c.bytes
      { l' with claims := l'.claims.set n { c with live := false } }
    else l
  | none => l

/-- A step on a ledger. -/
inductive Event where
  | claim (bytes : UInt64)
  | release (bytes : UInt64)
  | addContext
  | claimIn (context : Nat) (bytes : UInt64)
  | releaseIn (context : Nat) (bytes : UInt64)
  | closeContext (context : Nat)
  | hold (context : Nat) (bytes : UInt64)
  | drop (claim : Nat)

/-- What a step gives back: nothing, the number of a new context, or a new held claim. -/
inductive Outcome where
  | done
  | context (n : Nat)
  | held (n : Nat) (bytes : UInt64)
  deriving DecidableEq, Repr

/-- Runs one step. A failed claim changes nothing; closing a context that still held bytes
gives them back and then reports the leak. -/
def step : Event → Step Ledger Outcome
  | .claim bytes => do set (← Step.ofFn fun l => (l.claim bytes, l)); pure .done
  | .release bytes => do modify (·.release bytes); pure .done
  | .addContext => do
    let (l, i) := (← get).addContext
    set l
    pure (.context i)
  | .claimIn i bytes => do set (← Step.ofFn fun l => (l.claimIn i bytes, l)); pure .done
  | .releaseIn i bytes => do modify (·.releaseIn i bytes); pure .done
  | .closeContext i => do
    let (l, r) := (← get).closeContext i
    set l
    Step.ofFn fun l => (r.map fun _ => .done, l)
  | .hold i bytes => do
    let (l, n) ← Step.ofFn fun l => (l.hold i bytes, l)
    set l
    pure (.held n bytes)
  | .drop n => do modify (·.drop n); pure .done

end Ledger

end Memory

end GroupStats
