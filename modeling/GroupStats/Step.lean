import GroupStats.Error

/-!
# Steps of stateful objects

Cursors, writers, sessions and the memory ledger are values that change with every
operation. An operation is a `Step`: it leaves a new state and either answers or fails, and the
state it leaves counts in both cases, so a failed read keeps the bytes it consumed.
-/

namespace GroupStats

/-- An operation on a state `σ` that answers an `α` or fails with an `Error`. -/
abbrev Step (σ α : Type) := ExceptT Error (StateM σ) α

namespace Step

/-- Runs a step from a state, giving the outcome and the state left behind. -/
def apply (x : Step σ α) (s : σ) : Except Error α × σ := (ExceptT.run x).run s

/-- The step of a function from states to outcome and next state. -/
def ofFn (f : σ → Except Error α × σ) : Step σ α := ExceptT.mk (StateT.mk f)

@[simp] theorem apply_ofFn (f : σ → Except Error α × σ) (s : σ) : (ofFn f).apply s = f s := rfl

/-- Runs a step on one part of a larger state. -/
def focus (get : τ → σ) (set : τ → σ → τ) (x : Step σ α) : Step τ α :=
  ofFn fun t => let (r, s) := x.apply (get t); (r, set t s)

/-- Catches the failure of a step as a value; the state is kept either way. -/
def attempt (x : Step σ α) : Step σ (Except Error α) :=
  ofFn fun s => let (r, s') := x.apply s; (.ok r, s')

/-- Runs a step on every element of a list of states, in order, stopping at the first
failure; the elements after a failure are left as they were. -/
def onEach (x : Step σ α) : Step (List σ) (List α) :=
  ofFn fun ss => go ss
where
  go : List σ → Except Error (List α) × List σ
    | [] => (.ok [], [])
    | s :: rest =>
      match x.apply s with
      | (.ok a, s') =>
        match go rest with
        | (.ok as, rest') => (.ok (a :: as), s' :: rest')
        | (.error e, rest') => (.error e, s' :: rest')
      | (.error e, s') => (.error e, s' :: rest)

/-- Runs a step on the element at an index of a list of states; at an index past the end
nothing changes and the answer is `none`. -/
def onIndex (i : Nat) (x : Step σ α) : Step (List σ) (Option α) :=
  ofFn fun ss =>
    match ss[i]? with
    | none => (.ok none, ss)
    | some s => let (r, s') := x.apply s; (r.map some, ss.set i s')

/-- A step that changes nothing and fails. -/
def fail (e : Error) : Step σ α := throw e

/-- A step that changes nothing and gives the outcome of a computation. -/
def lift (x : Except Error α) : Step σ α := ofFn fun s => (x, s)

@[simp] theorem apply_lift (x : Except Error α) (s : σ) : (lift x : Step σ α).apply s = (x, s) := rfl

end Step

end GroupStats
