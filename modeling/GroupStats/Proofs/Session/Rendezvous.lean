import Mathlib
import GroupStats.Session.Interleaved

/-!
# Safety of the split rendezvous

Whatever the order in which registrations, closes and rounds take their steps, the rendezvous
keeps its table consistent, loses and duplicates no output, runs every round once with the
outputs of exactly its parties, and strands no waiting party once it is closed.

The proof is one invariant, `Inv`, kept by every step. Each output is counted where it can
be, in the table, in the batch of a round or among the closed outputs, and the count is one
for every output handed over and zero for the others. A round is run by the party whose
registration filled the last slot, and the slots of the table record which party asked for
which split, so the batch of a round lists its parties in split order.
-/

namespace GroupStats

namespace Interleaved

/-- Whether a thread is a registration that has not yet handed its output over. -/
def Pc.registering : Pc → Bool
  | .start | .checked => true
  | _ => false

/-! ### Options in slots -/

section Slots

variable {l : List (Option Nat)} {i p : Nat}

/-- Filling an empty slot adds its output to those the slots hold. -/
theorem perm_filterMap_set (h : l[i]? = some none) :
    ((l.set i (some p)).filterMap id).Perm (p :: l.filterMap id) := by
  induction l generalizing i with
  | nil => simp at h
  | cons a t ih =>
    cases i with
    | zero =>
      simp only [List.getElem?_cons_zero, Option.some.injEq] at h
      subst h
      simp
    | succ i =>
      simp only [List.getElem?_cons_succ] at h
      cases a with
      | none => simpa using ih h
      | some b =>
        simp only [List.set_cons_succ, List.filterMap_cons, id]
        exact ((ih h).cons b).trans (List.Perm.swap p b _)

/-- Slots that are all filled are the outputs they hold. -/
theorem eq_map_some_of_length (h : (l.filterMap id).length = l.length) :
    l = (l.filterMap id).map some := by
  induction l with
  | nil => rfl
  | cons a t ih =>
    cases a with
    | none =>
      have := List.length_filterMap_le id t
      rw [List.filterMap_cons_none (rfl : id none = none), List.length_cons] at h
      omega
    | some b =>
      have hb : List.filterMap id (some b :: t) = b :: t.filterMap id :=
        List.filterMap_cons_some rfl
      rw [hb, List.length_cons, List.length_cons, Nat.add_right_cancel_iff] at h
      rw [hb, List.map_cons, ← ih h]

end Slots

namespace World

variable {w : World} {p p' : Nat} {c : Pc} {q : Request}

@[simp] theorem moveTo_pc : (w.moveTo p c).pc p' = if p' = p then c else w.pc p' := rfl
@[simp] theorem moveTo_requests : (w.moveTo p c).requests = w.requests := rfl
@[simp] theorem moveTo_closed : (w.moveTo p c).closed = w.closed := rfl
@[simp] theorem moveTo_round : (w.moveTo p c).round = w.round := rfl
@[simp] theorem moveTo_slots : (w.moveTo p c).slots = w.slots := rfl
@[simp] theorem moveTo_fields : (w.moveTo p c).fields = w.fields := rfl
@[simp] theorem moveTo_arrived : (w.moveTo p c).arrived = w.arrived := rfl
@[simp] theorem moveTo_outcome : (w.moveTo p c).outcome = w.outcome := rfl
@[simp] theorem moveTo_closedOutputs : (w.moveTo p c).closedOutputs = w.closedOutputs := rfl
@[simp] theorem moveTo_batches : (w.moveTo p c).batches = w.batches := rfl
@[simp] theorem moveTo_refusals : (w.moveTo p c).refusals = w.refusals := rfl
@[simp] theorem registered_moveTo : (w.moveTo p c).registered = w.registered := rfl

variable {e : Error}

@[simp] theorem answer_pc : (w.answer p e).pc = w.pc := rfl
@[simp] theorem answer_requests : (w.answer p e).requests = w.requests := rfl
@[simp] theorem answer_closed : (w.answer p e).closed = w.closed := rfl
@[simp] theorem answer_round : (w.answer p e).round = w.round := rfl
@[simp] theorem answer_slots : (w.answer p e).slots = w.slots := rfl
@[simp] theorem answer_fields : (w.answer p e).fields = w.fields := rfl
@[simp] theorem answer_arrived : (w.answer p e).arrived = w.arrived := rfl
@[simp] theorem answer_outcome : (w.answer p e).outcome = w.outcome := rfl
@[simp] theorem answer_closedOutputs : (w.answer p e).closedOutputs = w.closedOutputs := rfl
@[simp] theorem answer_batches : (w.answer p e).batches = w.batches := rfl
@[simp] theorem registered_answer : (w.answer p e).registered = w.registered := rfl
@[simp] theorem answer_refusals_self : (w.answer p e).refusals p = some e := by simp [answer]

theorem answer_moveTo : (w.moveTo p c).answer p' e = (w.answer p' e).moveTo p c := rfl

@[simp] theorem sweep_requests : w.sweep.requests = w.requests := rfl
@[simp] theorem sweep_pc : w.sweep.pc = w.pc := rfl
@[simp] theorem sweep_closed : w.sweep.closed = w.closed := rfl
@[simp] theorem sweep_round : w.sweep.round = w.round + 1 := rfl
@[simp] theorem sweep_slots : w.sweep.slots = [] := rfl
@[simp] theorem sweep_arrived : w.sweep.arrived = 0 := rfl
@[simp] theorem sweep_closedOutputs : w.sweep.closedOutputs = w.closedOutputs ++ w.registered := rfl
@[simp] theorem sweep_batches : w.sweep.batches = w.batches := rfl
@[simp] theorem registered_sweep : w.sweep.registered = [] := rfl
theorem sweep_outcome (r : Nat) :
    w.sweep.outcome r =
      if r = w.round ∧ w.outcome r = none then some .closed else w.outcome r := rfl

@[simp] theorem finish_requests {r : Nat} {o : Outcome} :
    (w.finish r o).requests = w.requests := rfl
@[simp] theorem finish_pc {r : Nat} {o : Outcome} : (w.finish r o).pc = w.pc := rfl
@[simp] theorem finish_closed {r : Nat} {o : Outcome} : (w.finish r o).closed = w.closed := rfl
@[simp] theorem finish_round {r : Nat} {o : Outcome} : (w.finish r o).round = w.round := rfl
@[simp] theorem finish_slots {r : Nat} {o : Outcome} : (w.finish r o).slots = w.slots := rfl
@[simp] theorem finish_fields {r : Nat} {o : Outcome} : (w.finish r o).fields = w.fields := rfl
@[simp] theorem finish_arrived {r : Nat} {o : Outcome} : (w.finish r o).arrived = w.arrived := rfl
@[simp] theorem finish_closedOutputs {r : Nat} {o : Outcome} :
    (w.finish r o).closedOutputs = w.closedOutputs := rfl
@[simp] theorem finish_batches {r : Nat} {o : Outcome} : (w.finish r o).batches = w.batches := rfl
@[simp] theorem registered_finish {r : Nat} {o : Outcome} :
    (w.finish r o).registered = w.registered := rfl
theorem finish_outcome {r r' : Nat} {o : Outcome} :
    (w.finish r o).outcome r' =
      if r' = r ∧ w.outcome r' = none then some o else w.outcome r' := rfl

/-- Finishing a round leaves an outcome that was there. -/
theorem finish_outcome_of_isSome {r r' : Nat} {o o' : Outcome} (h : w.outcome r' = some o') :
    (w.finish r o).outcome r' = some o' := by
  simp [finish_outcome, h]

theorem finish_outcome_of_ne {r r' : Nat} {o : Outcome} (h : r' ≠ r) :
    (w.finish r o).outcome r' = w.outcome r' := by
  simp [finish_outcome, h]

@[simp] theorem fill_requests : (w.fill p q).requests = w.requests := rfl
@[simp] theorem fill_pc : (w.fill p q).pc = w.pc := rfl
@[simp] theorem fill_closed : (w.fill p q).closed = w.closed := rfl
@[simp] theorem fill_round : (w.fill p q).round = w.round := rfl
@[simp] theorem fill_arrived : (w.fill p q).arrived = w.arrived + 1 := rfl
@[simp] theorem fill_outcome : (w.fill p q).outcome = w.outcome := rfl
@[simp] theorem fill_closedOutputs : (w.fill p q).closedOutputs = w.closedOutputs := rfl
@[simp] theorem fill_batches : (w.fill p q).batches = w.batches := rfl

/-- Whether thread `p` has handed its output over: a registration past its unlocked check or
its locked section. -/
def handed (w : World) (p : Nat) : Bool := (w.requests p).isSome && !(w.pc p).registering

/-- How many places hold the output of thread `p`: the table, the batches of the rounds, the
closed outputs. -/
def placements (w : World) (p : Nat) : Nat :=
  w.registered.count p + (w.batches.flatMap (·.outputs)).count p + w.closedOutputs.count p

@[simp] theorem placements_moveTo {x : Nat} : (w.moveTo p c).placements x = w.placements x := rfl

@[simp] theorem handed_sweep {x : Nat} : w.sweep.handed x = w.handed x := rfl

/-- Sweeping moves the outputs of the table to the closed ones. -/
@[simp] theorem placements_sweep {x : Nat} : w.sweep.placements x = w.placements x := by
  simp [placements, List.count_append]
  omega

/-- What every step keeps but for the shape of the table, which a locked section breaks for
the moment between filling a slot and re-arming or sweeping the table. -/
structure Books (w : World) : Prop where
  /-- The arrival count is the number of filled slots. -/
  arrived_eq : w.arrived = w.registered.length
  /-- A filled slot holds the output of a party that asked for that split of the table's
  split count and fields. -/
  slot_request : ∀ j x, w.slots[j]? = some (some x) →
    ∃ q, w.requests x = some q ∧ q.index = j ∧ q.count = w.slots.length ∧
      q.fields = w.fields
  /-- Every output handed over is in exactly one place, and no other output is anywhere. -/
  placed : ∀ x, w.placements x = if w.handed x then 1 else 0
  /-- A registration past its check asked for a split inside its count. -/
  checked_index : ∀ x q, w.pc x = .checked → w.requests x = some q → q.index < q.count
  /-- No round is handed out twice. -/
  batch_rounds : (w.batches.map (·.round)).Nodup
  batch_lt : ∀ b ∈ w.batches, b.round < w.round
  /-- The batch of a round holds, at position `j`, the output of the party that asked for
  split `j`, all of them asking for the batch's size and fields. -/
  batch_request : ∀ b ∈ w.batches, ∀ j x, b.outputs[j]? = some x →
    ∃ q, w.requests x = some q ∧ q.index = j ∧ q.count = b.outputs.length ∧
      q.fields = b.fields
  batch_runner : ∀ b ∈ w.batches, b.runner ∈ b.outputs
  /-- Rounds from the current one on have no outcome yet. -/
  future_open : ∀ r, w.round ≤ r → w.outcome r = none
  /-- A party holding a round's outputs got them in that round's batch, and the round has no
  outcome yet. -/
  runner_batch : ∀ x r outs fs, w.pc x = .running r outs fs →
    ⟨r, x, outs, fs⟩ ∈ w.batches ∧ w.outcome r = none
  /-- A round handed out without an outcome is still held by its runner. -/
  pending_runner : ∀ b ∈ w.batches, w.outcome b.round = none →
    w.pc b.runner = .running b.round b.outputs b.fields
  /-- A waiting party's output is in its round's table, in its round's batch, or closed with
  its round. -/
  waiter : ∀ x r, w.pc x = .waiting r → (r = w.round ∧ x ∈ w.registered) ∨
    (∃ b ∈ w.batches, b.round = r ∧ x ∈ b.outputs) ∨ w.outcome r = some .closed
  sweeper_closed : ∀ x, w.pc x = .sweeping → w.closed
  sweeper_unique : ∀ x y, w.pc x = .sweeping → w.pc y = .sweeping → x = y

/-- What every step keeps. -/
structure Inv (w : World) : Prop extends w.Books where
  /-- A table with arrivals is never full: the party filling the last slot re-arms it. -/
  armed : w.arrived = 0 ∨ w.arrived < w.slots.length
  /-- Once closed, the table is empty but while the close that set the flag has yet to sweep
  it. -/
  closed_empty : w.closed → w.arrived = 0 ∨ ∃ x, w.pc x = .sweeping

/-! ### The start -/

theorem init_pc (ps : List Program) (x : Nat) :
    (init ps).pc x = .start ∨ (init ps).pc x = .closing ∨ (init ps).pc x = .done := by
  simp only [init]
  split <;> simp

theorem init_handed (ps : List Program) (x : Nat) : (init ps).handed x = false := by
  simp only [handed, init]
  cases ps[x]? with
  | none => rfl
  | some prog => cases prog <;> rfl

theorem inv_init (ps : List Program) : (init ps).Inv where
  arrived_eq := rfl
  armed := .inl rfl
  slot_request := by simp [init]
  placed x := by
    rw [init_handed]
    simp [placements, registered, init]
  checked_index x _ h := by rcases init_pc ps x with h' | h' | h' <;> rw [h'] at h <;> cases h
  batch_rounds := List.nodup_nil
  batch_lt := by simp [init]
  batch_request := by simp [init]
  batch_runner := by simp [init]
  future_open := by simp [init]
  runner_batch x _ _ _ h := by rcases init_pc ps x with h' | h' | h' <;> rw [h'] at h <;> cases h
  pending_runner := by simp [init]
  waiter x _ h := by rcases init_pc ps x with h' | h' | h' <;> rw [h'] at h <;> cases h
  sweeper_closed x h := by rcases init_pc ps x with h' | h' | h' <;> rw [h'] at h <;> cases h
  sweeper_unique x _ h := by rcases init_pc ps x with h' | h' | h' <;> rw [h'] at h <;> cases h
  closed_empty := by simp [init]

/-! ### Filling a slot -/

/-- A table takes a registration when it is empty, or when the registration matches its split
count and fields and finds its slot empty. -/
def Accepts (w : World) (q : Request) : Prop :=
  w.arrived = 0 ∨ (w.slots.length = q.count ∧ w.fields = q.fields ∧ w.slots.getD q.index none = none)

theorem fill_length (ha : w.Accepts q) : (w.fill p q).slots.length = q.count := by
  simp only [fill, List.length_set]
  split
  · simp
  · rcases ha with h0 | ⟨hlen, -, -⟩
    · contradiction
    · exact hlen

theorem fill_fields (ha : w.Accepts q) : (w.fill p q).fields = q.fields := by
  rcases ha with h0 | ⟨-, hf, -⟩ <;> simp [fill, *]

/-- The slot a registration fills was empty. -/
theorem slot_empty (hi : q.index < q.count) (ha : w.Accepts q) :
    (if w.arrived = 0 then List.replicate q.count none else w.slots)[q.index]? = some none := by
  rcases ha with h0 | ⟨hlen, -, hslot⟩
  · simp [h0, hi]
  · by_cases h0 : w.arrived = 0
    · simp [h0, hi]
    · rw [if_neg h0, List.getElem?_eq_getElem (by omega)]
      rw [List.getD_eq_getElem?_getD, List.getElem?_eq_getElem (by omega)] at hslot
      simpa using hslot

/-- Filling a slot adds the registration's output to the table. -/
theorem Inv.fill_registered (h : w.Inv) (hi : q.index < q.count) (ha : w.Accepts q) :
    (w.fill p q).registered.Perm (p :: w.registered) := by
  have hempty : w.arrived = 0 → w.registered = [] := fun h0 =>
    List.eq_nil_of_length_eq_zero (h.arrived_eq ▸ h0)
  have hperm := perm_filterMap_set (p := p) (slot_empty hi ha)
  by_cases h0 : w.arrived = 0
  · have hnil := hempty h0
    simp only [registered] at hnil
    simp only [registered, fill, if_pos h0, hnil] at hperm ⊢
    simpa using hperm
  · simpa only [registered, fill, if_neg h0] using hperm

/-- The filled slot records its party's request, and the others keep theirs. -/
theorem Inv.fill_slot_request (h : w.Inv) (hp : w.requests p = some q) (ha : w.Accepts q) :
    ∀ j x, (w.fill p q).slots[j]? = some (some x) → ∃ q', w.requests x = some q' ∧
      q'.index = j ∧ q'.count = (w.fill p q).slots.length ∧
        q'.fields = (w.fill p q).fields := by
  intro j x hx
  rw [fill_length ha, fill_fields ha]
  by_cases hj : q.index = j
  · subst hj
    have hlt := (List.getElem?_eq_some_iff.mp hx).1
    simp only [fill] at hx
    rw [List.getElem?_set_self (by simpa [fill] using hlt)] at hx
    cases hx
    exact ⟨q, hp, rfl, rfl, rfl⟩
  · simp only [fill] at hx
    rw [List.getElem?_set_ne hj] at hx
    by_cases h0 : w.arrived = 0
    · simp [h0, List.getElem?_replicate] at hx
    · rw [if_neg h0] at hx
      obtain ⟨q', hq', hj, hc, hf⟩ := h.slot_request j x hx
      rcases ha with ha | ⟨hlen, hfields, -⟩
      · exact absurd ha h0
      · exact ⟨q', hq', hj, hc.trans hlen, hf.trans hfields⟩

/-- The locked section refuses a registration the table does not take, sweeps the table when
the flag is set, leaves the party waiting while slots stay empty, and hands it the round when
it fills the last slot. -/
theorem lock_cases (w : World) (p : Nat) (q : Request) :
    (¬ w.Accepts q ∧ ∃ e, w.lock p q = w.reject p e) ∨
    (w.Accepts q ∧ w.closed ∧
      w.lock p q = ((w.fill p q).sweep.answer p (.closed .multiSession)).moveTo p .done) ∨
    (w.Accepts q ∧ w.closed = false ∧ w.arrived + 1 < q.count ∧
      w.lock p q = (w.fill p q).moveTo p (.waiting w.round)) ∨
    (w.Accepts q ∧ w.closed = false ∧ q.count ≤ w.arrived + 1 ∧
      w.lock p q = { (w.fill p q).rearm with batches := w.batches ++
        [(⟨w.round, p, (w.fill p q).registered, (w.fill p q).fields⟩ : Batch)] }.moveTo p
        (.running w.round (w.fill p q).registered (w.fill p q).fields)) := by
  unfold lock
  by_cases h1 : w.arrived ≠ 0 ∧ (w.slots.length ≠ q.count ∨ w.fields ≠ q.fields)
  · left
    refine ⟨?_, _, if_pos h1⟩
    rintro (h0 | ⟨hl, hf, -⟩)
    · exact h1.1 h0
    · exact h1.2.elim (· hl) (· hf)
  rw [if_neg h1]
  by_cases h2 : w.arrived ≠ 0 ∧ (w.slots.getD q.index none).isSome
  · left
    refine ⟨?_, _, if_pos h2⟩
    rintro (h0 | ⟨-, -, hs⟩)
    · exact h2.1 h0
    · rw [hs] at h2
      exact Bool.false_ne_true h2.2
  rw [if_neg h2]
  have ha : w.Accepts q := by
    by_cases h0 : w.arrived = 0
    · exact .inl h0
    · simp only [ne_eq, h0, not_false_eq_true, true_and, not_or, Decidable.not_not] at h1 h2
      exact .inr ⟨h1.1, h1.2, by simpa using h2⟩
  have harr : (w.fill p q).arrived = w.arrived + 1 := rfl
  cases hc : w.closed
  · simp only [Bool.false_eq_true, if_false, harr]
    split
    · exact .inr (.inr (.inl ⟨ha, trivial, ‹_›, rfl⟩))
    · exact .inr (.inr (.inr ⟨ha, trivial, by omega, rfl⟩))
  · exact .inr (.inl ⟨ha, by simp, by simp⟩)

/-! ### Moving a thread -/

theorem moveTo_pc_ne {x : Nat} (hx : x ≠ p) : (w.moveTo p c).pc x = w.pc x := by
  simp [hx]

/-- A thread found at a place the moved thread did not go to was there before. -/
theorem pc_of_moveTo {x : Nat} {d : Pc} (h : (w.moveTo p c).pc x = d) (hd : c ≠ d) :
    x ≠ p ∧ w.pc x = d := by
  simp only [moveTo_pc] at h
  split at h
  · exact absurd h hd
  · exact ⟨‹_›, h⟩

theorem handed_moveTo {x : Nat} :
    (w.moveTo p c).handed x =
      if x = p then (w.requests p).isSome && !c.registering else w.handed x := by
  by_cases hx : x = p
  · subst hx
    simp [handed]
  · simp [handed, hx]

/-- A thread in any of these places is not a registration about to hand its output over. -/
theorem registering_ne_running {r : Nat} {outs : List Nat} {fs : List Field}
    (hp : (w.pc p).registering) : w.pc p ≠ .running r outs fs := by
  intro h
  rw [h] at hp
  cases hp

/-- A pending runner is not a thread that is about to move elsewhere. -/
theorem Books.runner_ne (h : w.Books) {b : Batch} (hb : b ∈ w.batches)
    (hnone : w.outcome b.round = none) (hp : ∀ r outs fs, w.pc p ≠ .running r outs fs) :
    b.runner ≠ p := by
  rintro rfl
  exact hp _ _ _ (h.pending_runner b hb hnone)

/-! ### Steps that move no output -/

/-- Refusing a registration closes its output and changes nothing else but its thread. -/
theorem Inv.reject (h : w.Inv) (hq : (w.requests p).isSome) (hp : (w.pc p).registering)
    (e : Error) : (w.reject p e).Inv where
  arrived_eq := h.arrived_eq
  armed := h.armed
  slot_request := h.slot_request
  placed x := by
    have hx := h.placed x
    simp only [World.reject, placements, handed_moveTo, registered_moveTo, moveTo_batches,
      moveTo_closedOutputs, registered_answer, answer_batches, answer_closedOutputs,
      List.count_append, List.count_singleton] at hx ⊢
    by_cases hxp : x = p
    · subst hxp
      simp only [handed, hp, Bool.not_true, Bool.and_false, Bool.false_eq_true, if_false] at hx
      simp [hq, Pc.registering, registered] at hx ⊢
      omega
    · simp only [if_neg hxp]
      simp only [registered, handed] at hx ⊢
      simp [Ne.symm hxp] at hx ⊢
      omega
  checked_index x q' hx := h.checked_index x q' (pc_of_moveTo hx (by decide)).2
  batch_rounds := h.batch_rounds
  batch_lt := h.batch_lt
  batch_request := h.batch_request
  batch_runner := h.batch_runner
  future_open := h.future_open
  runner_batch x r outs fs hx := h.runner_batch x r outs fs (pc_of_moveTo hx (by simp)).2
  pending_runner b hb hnone := by
    simp only [World.reject]
    rw [moveTo_pc_ne (h.runner_ne hb hnone fun _ _ _ => registering_ne_running hp)]
    exact h.pending_runner b hb hnone
  waiter x r hx := h.waiter x r (pc_of_moveTo hx (by simp)).2
  sweeper_closed x hx := h.sweeper_closed x (pc_of_moveTo hx (by simp)).2
  sweeper_unique x y hx hy :=
    h.sweeper_unique x y (pc_of_moveTo hx (by simp)).2 (pc_of_moveTo hy (by simp)).2
  closed_empty hc := by
    rcases h.closed_empty hc with h0 | ⟨x, hx⟩
    · exact .inl h0
    · refine .inr ⟨x, ?_⟩
      have hxp : x ≠ p := by
        rintro rfl
        rw [hx] at hp
        cases hp
      simp [World.reject, hxp, hx]

/-- Answering a thread changes nothing the invariant reads. -/
theorem Inv.answer (h : w.Inv) : (w.answer p e).Inv where
  arrived_eq := h.arrived_eq
  slot_request := h.slot_request
  placed := h.placed
  checked_index := h.checked_index
  batch_rounds := h.batch_rounds
  batch_lt := h.batch_lt
  batch_request := h.batch_request
  batch_runner := h.batch_runner
  future_open := h.future_open
  runner_batch := h.runner_batch
  pending_runner := h.pending_runner
  waiter := h.waiter
  sweeper_closed := h.sweeper_closed
  sweeper_unique := h.sweeper_unique
  armed := h.armed
  closed_empty := h.closed_empty

/-- Moving a thread that holds no round and is not sweeping to a place where it holds no round,
waits for none and sweeps nothing, without handing an output over, keeps the invariant. -/
theorem Inv.moveTo (h : w.Inv) (hc : c = .checked ∨ c = .done)
    (hidx : c = .checked → ∀ q, w.requests p = some q → q.index < q.count)
    (hreg : c.registering = (w.pc p).registering)
    (hrun : ∀ r outs fs, w.pc p ≠ .running r outs fs) (hsw : w.pc p ≠ .sweeping) :
    (w.moveTo p c).Inv where
  arrived_eq := h.arrived_eq
  armed := h.armed
  slot_request := h.slot_request
  placed x := by
    rw [handed_moveTo]
    by_cases hxp : x = p
    · subst hxp
      simpa [placements, handed, hreg] using h.placed x
    · simpa [placements, hxp] using h.placed x
  checked_index x q' hx hq := by
    by_cases hxp : x = p
    · subst hxp
      have : c = .checked := by simpa using hx
      exact hidx this q' hq
    · exact h.checked_index x q' (by simpa [hxp] using hx) hq
  batch_rounds := h.batch_rounds
  batch_lt := h.batch_lt
  batch_request := h.batch_request
  batch_runner := h.batch_runner
  future_open := h.future_open
  runner_batch x r outs fs hx :=
    h.runner_batch x r outs fs (pc_of_moveTo hx (by rcases hc with rfl | rfl <;> simp)).2
  pending_runner b hb hnone := by
    rw [moveTo_pc_ne (h.runner_ne hb hnone hrun)]
    exact h.pending_runner b hb hnone
  waiter x r hx := h.waiter x r (pc_of_moveTo hx (by rcases hc with rfl | rfl <;> simp)).2
  sweeper_closed x hx :=
    h.sweeper_closed x (pc_of_moveTo hx (by rcases hc with rfl | rfl <;> simp)).2
  sweeper_unique x y hx hy :=
    h.sweeper_unique x y (pc_of_moveTo hx (by rcases hc with rfl | rfl <;> simp)).2
      (pc_of_moveTo hy (by rcases hc with rfl | rfl <;> simp)).2
  closed_empty hcl := by
    rcases h.closed_empty hcl with h0 | ⟨x, hx⟩
    · exact .inl h0
    · refine .inr ⟨x, ?_⟩
      have hxp : x ≠ p := by
        rintro rfl
        exact hsw hx
      simp [hxp, hx]

/-! ### Closing -/

/-- The first close to set the flag becomes the one sweeper. -/
theorem Inv.setFlag (h : w.Inv) (hp : w.pc p = .closing) (hc : w.closed = false) :
    ({ w with closed := true }.moveTo p .sweeping).Inv where
  arrived_eq := h.arrived_eq
  armed := h.armed
  slot_request := h.slot_request
  placed x := by
    rw [handed_moveTo]
    by_cases hxp : x = p
    · subst hxp
      simpa [placements, handed, registered, hp, Pc.registering] using h.placed x
    · simpa [placements, handed, registered, hxp] using h.placed x
  checked_index x q' hx hq := h.checked_index x q' (pc_of_moveTo hx (by simp)).2 hq
  batch_rounds := h.batch_rounds
  batch_lt := h.batch_lt
  batch_request := h.batch_request
  batch_runner := h.batch_runner
  future_open := h.future_open
  runner_batch x r outs fs hx := h.runner_batch x r outs fs (pc_of_moveTo hx (by simp)).2
  pending_runner b hb hnone := by
    rw [moveTo_pc_ne (h.runner_ne hb hnone fun _ _ _ => by rw [hp]; simp)]
    exact h.pending_runner b hb hnone
  waiter x r hx := h.waiter x r (pc_of_moveTo hx (by simp)).2
  sweeper_closed _ _ := rfl
  sweeper_unique x y hx hy := by
    -- no close was sweeping before the flag was set
    have hone :
        ∀ z, (({ w with closed := true }.moveTo p .sweeping).pc z = .sweeping) → z = p := by
      intro z hz
      by_cases hzp : z = p
      · exact hzp
      · have := h.sweeper_closed z (by simpa [hzp] using hz)
        rw [hc] at this
        cases this
    rw [hone x hx, hone y hy]
  closed_empty _ := .inr ⟨p, by simp⟩

/-- Sweeping closes the outputs in the table and finishes its round as closed; the thread that
sweeps, which holds no round and has handed over whatever it had, is then done. The table may be
in the middle of a locked section. -/
theorem Books.sweep (h : w.Books) (hreg : (w.pc p).registering = false)
    (hrun : ∀ r outs fs, w.pc p ≠ .running r outs fs) : (w.sweep.moveTo p .done).Inv where
  arrived_eq := rfl
  armed := .inl rfl
  slot_request := by simp
  placed x := by
    rw [handed_moveTo, placements_moveTo, placements_sweep, h.placed x]
    by_cases hxp : x = p
    · subst hxp
      simp only [handed, hreg, if_true]
      rfl
    · simp [hxp]
  checked_index x q' hx hq := h.checked_index x q' (pc_of_moveTo hx (by simp)).2 hq
  batch_rounds := h.batch_rounds
  batch_lt b hb := Nat.lt_succ_of_lt (h.batch_lt b hb)
  batch_request := h.batch_request
  batch_runner := h.batch_runner
  future_open r hr := by
    simp only [moveTo_round, sweep_round] at hr
    simp only [moveTo_outcome, sweep_outcome]
    rw [if_neg (by omega)]
    exact h.future_open r (by omega)
  runner_batch x r outs fs hx := by
    obtain ⟨hb, hnone⟩ := h.runner_batch x r outs fs (pc_of_moveTo hx (by simp)).2
    have := h.batch_lt _ hb
    refine ⟨hb, ?_⟩
    simp only [moveTo_outcome, sweep_outcome]
    rw [if_neg (by simp at this; omega)]
    exact hnone
  pending_runner b hb hnone := by
    have hlt := h.batch_lt b hb
    have hnone' : w.outcome b.round = none := by
      simpa [sweep_outcome, show b.round ≠ w.round by omega] using hnone
    rw [moveTo_pc_ne (h.runner_ne hb hnone' hrun)]
    exact h.pending_runner b hb hnone'
  waiter x r hx := by
    have hw := h.waiter x r (pc_of_moveTo hx (by simp)).2
    simp only [moveTo_outcome, sweep_outcome, moveTo_batches, sweep_batches]
    rcases hw with ⟨rfl, -⟩ | hb | hclosed
    · exact .inr (.inr (by rw [if_pos ⟨rfl, h.future_open _ (Nat.le_refl _)⟩]))
    · exact .inr (.inl hb)
    · refine .inr (.inr ?_)
      split
      · rename_i hr
        exact absurd hclosed (by rw [hr.2]; simp)
      · exact hclosed
  sweeper_closed x hx := h.sweeper_closed x (pc_of_moveTo hx (by simp)).2
  sweeper_unique x y hx hy :=
    h.sweeper_unique x y (pc_of_moveTo hx (by simp)).2 (pc_of_moveTo hy (by simp)).2
  closed_empty _ := .inl rfl

/-- A close's sweep closes the outputs in the table and finishes its round as closed. -/
theorem Inv.sweep (h : w.Inv) (hp : w.pc p = .sweeping) : (w.sweep.moveTo p .done).Inv :=
  h.toBooks.sweep (by rw [hp]; rfl) (fun _ _ _ => by rw [hp]; simp)

/-! ### The locked section -/

/-- Filling a slot places the registration's output once, in the table. -/
theorem Inv.placements_fill (h : w.Inv) (hi : q.index < q.count) (ha : w.Accepts q) (x : Nat) :
    (w.fill p q).placements x = w.placements x + if x = p then 1 else 0 := by
  have hcount := (h.fill_registered (p := p) hi ha).count_eq x
  simp only [placements, fill_batches, fill_closedOutputs, hcount, List.count_cons]
  by_cases hxp : x = p <;> simp [hxp] <;> omega

/-- A table the registration is taken by has room for it. -/
theorem Inv.arrived_lt (h : w.Inv) (hi : q.index < q.count) (ha : w.Accepts q) :
    w.arrived < q.count := by
  rcases ha with h0 | ⟨hlen, -, -⟩
  · omega
  · rcases h.armed with h0 | hlt <;> omega

/-- A registration that filled its slot waits for the round, the table perhaps full or closed. -/
theorem Inv.fill_wait (h : w.Inv) (hq : w.requests p = some q) (hp : w.pc p = .checked)
    (ha : w.Accepts q) : ((w.fill p q).moveTo p (.waiting w.round)).Books where
  arrived_eq := by
    have hi := h.checked_index p q hp hq
    simp [(h.fill_registered (p := p) hi ha).length_eq, h.arrived_eq]
  slot_request := by simpa using h.fill_slot_request hq ha
  placed x := by
    have hi := h.checked_index p q hp hq
    rw [handed_moveTo, placements_moveTo, h.placements_fill hi ha, h.placed x]
    by_cases hxp : x = p
    · subst hxp
      simp [handed, hp, hq, Pc.registering]
    · simp [hxp, handed]
  checked_index x q' hx hq' := h.checked_index x q' (pc_of_moveTo hx (by simp)).2 hq'
  batch_rounds := h.batch_rounds
  batch_lt := h.batch_lt
  batch_request := h.batch_request
  batch_runner := h.batch_runner
  future_open := h.future_open
  runner_batch x r outs fs hx := h.runner_batch x r outs fs (pc_of_moveTo hx (by simp)).2
  pending_runner b hb hnone := by
    rw [moveTo_pc_ne (h.runner_ne hb hnone fun _ _ _ => by rw [hp]; simp)]
    exact h.pending_runner b hb hnone
  waiter x r hx := by
    have hmem := (h.fill_registered (p := p) (h.checked_index p q hp hq) ha).mem_iff (a := x)
    simp only [moveTo_pc] at hx
    by_cases hxp : x = p
    · rw [if_pos hxp] at hx
      cases hx
      subst hxp
      exact .inl ⟨rfl, hmem.mpr (by simp)⟩
    · rw [if_neg hxp] at hx
      rcases h.waiter x r hx with ⟨hr, hm⟩ | hb | hc
      · exact .inl ⟨hr, by simp [hmem, hm]⟩
      · exact .inr (.inl hb)
      · exact .inr (.inr hc)
  sweeper_closed x hx := h.sweeper_closed x (pc_of_moveTo hx (by simp)).2
  sweeper_unique x y hx hy :=
    h.sweeper_unique x y (pc_of_moveTo hx (by simp)).2 (pc_of_moveTo hy (by simp)).2

theorem moveTo_moveTo {d : Pc} : (w.moveTo p c).moveTo p d = w.moveTo p d := by
  simp only [moveTo, World.mk.injEq, true_and, and_true]
  funext x
  by_cases hx : x = p <;> simp [hx]

/-- A party waiting for the current round is registered in the table. -/
theorem Books.mem_registered (h : w.Books) (hp : w.pc p = .waiting w.round) :
    p ∈ w.registered := by
  rcases h.waiter p w.round hp with ⟨-, hm⟩ | ⟨b, hb, hr, -⟩ | hc
  · exact hm
  · exact absurd hr (Nat.ne_of_lt (h.batch_lt b hb))
  · rw [h.future_open _ (Nat.le_refl _)] at hc
    cases hc

/-- The world after a party waiting for the current round takes its outputs and re-arms the
table. -/
def handOut (w : World) (p : Nat) : World :=
  { w.rearm with batches := w.batches ++ [(⟨w.round, p, w.registered, w.fields⟩ : Batch)] }.moveTo p
    (.running w.round w.registered w.fields)

/-- Handing a round out moves the outputs of the table to its batch. -/
@[simp] theorem placements_handOut {x : Nat} : (w.handOut p).placements x = w.placements x := by
  simp [handOut, placements, rearm, registered, List.count_append]
  omega

/-- The party of the current round that finds every slot filled takes the round's outputs,
which are its parties' in split order. -/
theorem Books.handOut (h : w.Books) (hp : w.pc p = .waiting w.round)
    (hfull : w.registered.length = w.slots.length) (hc : w.closed = false) : (w.handOut p).Inv where
  arrived_eq := rfl
  armed := .inl rfl
  slot_request := by simp [World.handOut, rearm]
  placed x := by
    rw [placements_handOut, h.placed x]
    by_cases hxp : x = p
    · subst hxp
      simp [World.handOut, handed, hp, rearm, Pc.registering]
    · simp [World.handOut, handed, hxp, rearm]
  checked_index x q' hx hq := by
    simp only [World.handOut, moveTo_pc] at hx
    split at hx
    · cases hx
    · exact h.checked_index x q' hx hq
  batch_rounds := by
    simp only [World.handOut, moveTo_batches, List.map_append, List.map_cons, List.map_nil]
    refine List.nodup_append.mpr ⟨h.batch_rounds, List.nodup_singleton _, ?_⟩
    simp only [List.mem_map, List.mem_singleton]
    rintro _ ⟨b, hb, rfl⟩ _ rfl
    exact Nat.ne_of_lt (h.batch_lt b hb)
  batch_lt b hb := by
    simp only [World.handOut, moveTo_batches, List.mem_append, List.mem_singleton] at hb
    rcases hb with hb | rfl
    · exact Nat.lt_succ_of_lt (h.batch_lt b hb)
    · exact Nat.lt_succ_self _
  batch_request b hb j x hx := by
    simp only [World.handOut, moveTo_batches, List.mem_append, List.mem_singleton] at hb
    rcases hb with hb | rfl
    · exact h.batch_request b hb j x hx
    · -- every slot is filled, so the slots are the registered outputs in order
      have hslots : w.slots = w.registered.map some := eq_map_some_of_length hfull
      have hj : w.slots[j]? = some (some x) := by simp [hslots, hx]
      obtain ⟨q, hq, hidx, hcount, hf⟩ := h.slot_request j x hj
      exact ⟨q, hq, hidx, hcount.trans hfull.symm, hf⟩
  batch_runner b hb := by
    simp only [World.handOut, moveTo_batches, List.mem_append, List.mem_singleton] at hb
    rcases hb with hb | rfl
    · exact h.batch_runner b hb
    · exact h.mem_registered hp
  future_open r hr := h.future_open r (by simp [World.handOut, rearm] at hr; omega)
  runner_batch x r outs fs hx := by
    simp only [World.handOut, moveTo_pc] at hx
    split at hx
    · cases hx
      exact ⟨by simp [World.handOut, *], h.future_open _ (Nat.le_refl _)⟩
    · obtain ⟨hb, hnone⟩ := h.runner_batch x r outs fs hx
      exact ⟨by simp [World.handOut, hb], hnone⟩
  pending_runner b hb hnone := by
    simp only [World.handOut, moveTo_batches, List.mem_append, List.mem_singleton] at hb
    rcases hb with hb | rfl
    · rw [World.handOut, moveTo_pc_ne (h.runner_ne hb hnone fun _ _ _ => by rw [hp]; simp)]
      exact h.pending_runner b hb hnone
    · simp [World.handOut]
  waiter x r hx := by
    simp only [World.handOut, moveTo_pc] at hx
    split at hx
    · cases hx
    · simp only [World.handOut, moveTo_batches, moveTo_outcome, registered_moveTo]
      rcases h.waiter x r hx with ⟨rfl, hm⟩ | ⟨b, hb, hr, hm⟩ | hcl
      · exact .inr (.inl ⟨_, List.mem_append_right _ (List.mem_singleton_self _), rfl, hm⟩)
      · exact .inr (.inl ⟨b, List.mem_append_left _ hb, hr, hm⟩)
      · exact .inr (.inr hcl)
  sweeper_closed x hx := by
    have := h.sweeper_closed x (pc_of_moveTo hx (by simp)).2
    rw [hc] at this
    cases this
  sweeper_unique x y hx hy :=
    h.sweeper_unique x y (pc_of_moveTo hx (by simp)).2 (pc_of_moveTo hy (by simp)).2
  closed_empty hcl := by simp [World.handOut, rearm, hc] at hcl

theorem sweep_moveTo : (w.moveTo p c).sweep = w.sweep.moveTo p c := rfl

theorem handOut_moveTo : (w.moveTo p c).handOut p = w.handOut p :=
  moveTo_moveTo (w := { w.rearm with
    batches := w.batches ++ [(⟨w.round, p, w.registered, w.fields⟩ : Batch)] })

/-- The locked section of a registration past its check keeps the invariant, in each of its
four outcomes. -/
theorem Inv.lock (h : w.Inv) (hq : w.requests p = some q) (hp : w.pc p = .checked) :
    (w.lock p q).Inv := by
  rcases lock_cases w p q with
    ⟨-, e, hl⟩ | ⟨ha, -, hl⟩ | ⟨ha, hc, hlt, hl⟩ | ⟨ha, hc, hge, hl⟩
  · rw [hl]
    exact h.reject (by simp [hq]) (by simp [hp, Pc.registering]) e
  · -- the flag was set after the check: the party sweeps the table, its own output included
    have hs := (h.fill_wait hq hp ha).sweep (p := p) (by simp [Pc.registering]) (by simp)
    rw [sweep_moveTo, moveTo_moveTo] at hs
    rw [hl, ← answer_moveTo]
    exact hs.answer
  · rw [hl]
    exact { toBooks := h.fill_wait hq hp ha
            armed := .inr (by simp [fill_length ha]; omega)
            closed_empty := by simp [hc] }
  · -- the party filled the last slot: every slot of the table is taken
    have hi := h.checked_index p q hp hq
    have hfull : ((w.fill p q).moveTo p (.waiting w.round)).registered.length =
        ((w.fill p q).moveTo p (.waiting w.round)).slots.length := by
      have := h.arrived_lt hi ha
      simp [(h.fill_registered (p := p) hi ha).length_eq, fill_length ha, ← h.arrived_eq]
      omega
    have hs := (h.fill_wait hq hp ha).handOut (p := p) (by simp) hfull (by simp [hc])
    rw [handOut_moveTo] at hs
    rw [hl]
    exact hs

/-! ### Running a round -/

/-- Two batches of one round are one batch. -/
theorem Inv.batch_eq (h : w.Inv) {b b' : Batch} (hb : b ∈ w.batches) (hb' : b' ∈ w.batches)
    (hr : b.round = b'.round) : b = b' :=
  List.inj_on_of_nodup_map h.batch_rounds hb hb' hr

/-- The party holding a round publishes its outcome and goes on, to close the multi-session
when the round failed. -/
theorem Inv.run (h : w.Inv) {r : Nat} {outs : List Nat} {fs : List Field} {o : Outcome}
    (hp : w.pc p = .running r outs fs) (hc : c = .done ∨ c = .closing) :
    ((w.finish r o).moveTo p c).Inv where
  arrived_eq := h.arrived_eq
  armed := h.armed
  slot_request := h.slot_request
  placed x := by
    rw [handed_moveTo]
    by_cases hxp : x = p
    · subst hxp
      rcases hc with rfl | rfl <;>
        simpa [placements, handed, hp, Pc.registering] using h.placed x
    · simpa [placements, handed, hxp] using h.placed x
  checked_index x q' hx hq :=
    h.checked_index x q' (pc_of_moveTo hx (by rcases hc with rfl | rfl <;> simp)).2 hq
  batch_rounds := h.batch_rounds
  batch_lt := h.batch_lt
  batch_request := h.batch_request
  batch_runner := h.batch_runner
  future_open r' hr' := by
    have hlt := h.batch_lt _ (h.runner_batch p r outs fs hp).1
    simp only [moveTo_outcome, moveTo_round, finish_round] at hr' ⊢
    rw [finish_outcome_of_ne (by simp at hlt; omega)]
    exact h.future_open r' hr'
  runner_batch x r' outs' fs' hx := by
    obtain ⟨hxp, hx⟩ := pc_of_moveTo hx (by rcases hc with rfl | rfl <;> simp)
    obtain ⟨hb, hnone⟩ := h.runner_batch x r' outs' fs' hx
    refine ⟨hb, ?_⟩
    -- the rounds of two runners differ, since each round has one batch
    have hr : r' ≠ r := by
      rintro rfl
      have := h.batch_eq hb (h.runner_batch p r' outs fs hp).1 rfl
      exact hxp (Batch.mk.inj this).2.1
    simpa [finish_outcome_of_ne hr] using hnone
  pending_runner b hb hnone := by
    have hr : b.round ≠ r := by
      rintro hbr
      simp [finish_outcome, hbr, (h.runner_batch p r outs fs hp).2] at hnone
    have hnone' : w.outcome b.round = none := by simpa [finish_outcome_of_ne hr] using hnone
    have hne : b.runner ≠ p := by
      rintro hbp
      have := h.pending_runner b hb hnone'
      rw [hbp, hp] at this
      exact hr (Pc.running.inj this).1.symm
    rw [moveTo_pc_ne hne]
    exact h.pending_runner b hb hnone'
  waiter x r' hx := by
    have hw := h.waiter x r' (pc_of_moveTo hx (by rcases hc with rfl | rfl <;> simp)).2
    simp only [moveTo_outcome, moveTo_batches, finish_batches, registered_moveTo,
      registered_finish, moveTo_round, finish_round]
    rcases hw with hw | hw | hw
    · exact .inl hw
    · exact .inr (.inl hw)
    · exact .inr (.inr (finish_outcome_of_isSome hw))
  sweeper_closed x hx :=
    h.sweeper_closed x (pc_of_moveTo hx (by rcases hc with rfl | rfl <;> simp)).2
  sweeper_unique x y hx hy :=
    h.sweeper_unique x y (pc_of_moveTo hx (by rcases hc with rfl | rfl <;> simp)).2
      (pc_of_moveTo hy (by rcases hc with rfl | rfl <;> simp)).2
  closed_empty hcl := by
    rcases h.closed_empty hcl with h0 | ⟨x, hx⟩
    · exact .inl h0
    · refine .inr ⟨x, ?_⟩
      have hxp : x ≠ p := by
        rintro rfl
        rw [hp] at hx
        cases hx
      simp [hxp, hx]

/-! ### Every run -/

/-- Every step keeps the invariant. -/
theorem Inv.step (h : w.Inv) {a : Action} {w' : World} (hs : w.step a = some w') : w'.Inv := by
  cases a with
  | check p =>
    simp only [World.step] at hs
    split at hs
    · rename_i q hq hp
      cases hs
      split
      · exact h.reject (by simp [hq]) (by simp [hp, Pc.registering]) _
      split
      · exact h.reject (by simp [hq]) (by simp [hp, Pc.registering]) _
      · rename_i hok
        refine h.moveTo (.inl rfl) (fun _ q' hq' => ?_) (by simp [hp, Pc.registering])
          (fun _ _ _ => by simp [hp]) (by simp [hp])
        rw [hq] at hq'
        cases hq'
        omega
    · cases hs
  | lock p =>
    simp only [World.step] at hs
    split at hs
    · rename_i q hq hp
      cases hs
      exact h.lock hq hp
    · cases hs
  | setFlag p =>
    simp only [World.step] at hs
    split at hs
    · rename_i hp
      cases hs
      split
      · exact h.moveTo (.inr rfl) (by simp) (by simp [hp, Pc.registering])
          (fun _ _ _ => by simp [hp]) (by simp [hp])
      · exact h.setFlag hp (by simpa using ‹¬w.closed = true›)
    · cases hs
  | sweep p =>
    simp only [World.step] at hs
    split at hs
    · cases hs
      exact h.sweep ‹_›
    · cases hs
  | run p res =>
    simp only [World.step] at hs
    split at hs
    · rename_i r outs fs hp
      cases hs
      cases res with
      | ok => exact h.run hp (.inl rfl)
      | error m => exact h.run hp (.inr rfl)
    · cases hs
  | wake p =>
    simp only [World.step] at hs
    split at hs
    · rename_i r hp
      split at hs
      · cases hs
        exact h.moveTo (.inr rfl) (by simp) (by simp [hp, Pc.registering])
          (fun _ _ _ => by simp [hp]) (by simp [hp])
      · cases hs
    · cases hs

/-- The invariant holds along every interleaving. -/
theorem Reachable.inv (hw : w.Reachable) : w.Inv := by
  induction hw with
  | init ps => exact inv_init ps
  | step a _ hs ih => exact ih.step hs

/-- The locked section hands the round to its party exactly when the party fills the last slot
of an open table. -/
theorem Inv.lock_runs (h : w.Inv) (hq : w.requests p = some q) (hp : w.pc p = .checked) :
    (∃ r outs fs, (w.lock p q).pc p = .running r outs fs) ↔
      w.closed = false ∧ w.Accepts q ∧ w.arrived + 1 = q.count := by
  rcases lock_cases w p q with
    ⟨hna, e, hl⟩ | ⟨-, hc, hl⟩ | ⟨-, -, hlt, hl⟩ | ⟨ha, hc, hge, hl⟩
  · simp [hl, World.reject, hna]
  · simp [hl, hc]
  · simp only [hl, moveTo_pc, if_true, reduceCtorEq, exists_false, false_iff]
    omega
  · have := h.arrived_lt (h.checked_index p q hp hq) ha
    simp only [hl, moveTo_pc, if_true]
    exact ⟨fun _ => ⟨hc, ha, by omega⟩, fun _ => ⟨_, _, _, rfl⟩⟩

/-! ### Refused registrations -/

/-- A registration refused from `w` to `w'` with the error `e`: its output, and only it, is
closed, and once; its caller is answered `e`; the flag, the table and the rounds are as they were. -/
structure Refused (w w' : World) (p : Nat) (e : Error) : Prop where
  closes : w'.closedOutputs = w.closedOutputs ++ [p]
  once : w'.closedOutputs.count p = 1
  answers : w'.refusals p = some e
  done : w'.pc p = .done
  flag : w'.closed = w.closed
  table : w'.round = w.round ∧ w'.slots = w.slots ∧ w'.fields = w.fields ∧ w'.arrived = w.arrived
  rounds : w'.outcome = w.outcome ∧ w'.batches = w.batches

/-- Refusing a registration that has not handed its output over is a refusal. -/
theorem Inv.refused_reject (h : w.Inv) (hq : (w.requests p).isSome) (hp : (w.pc p).registering)
    (e : Error) : Refused w (w.reject p e) p e where
  closes := rfl
  once := by
    -- the output was nowhere before, since its thread had not handed it over
    have hx := h.placed p
    simp only [handed, hq, hp, Bool.not_true, Bool.and_false, Bool.false_eq_true, if_false,
      placements] at hx
    simp only [World.reject, moveTo_closedOutputs, answer_closedOutputs, List.count_append,
      List.count_singleton_self]
    omega
  answers := by simp [World.reject]
  done := by simp [World.reject]
  flag := rfl
  table := ⟨rfl, rfl, rfl, rfl⟩
  rounds := ⟨rfl, rfl⟩

/-- The unlocked check refuses a registration on a closed multi-session with `Closed`, and one
whose split index lies outside its split count with that index. -/
theorem Inv.check_refused (h : w.Inv) (hq : w.requests p = some q) (hp : w.pc p = .start)
    {w' : World} (hs : w.step (.check p) = some w') :
    (w.closed → Refused w w' p (.closed .multiSession)) ∧
      (w.closed = false → (q.count = 0 ∨ q.count ≤ q.index) →
        Refused w w' p (.invalidArgument (.splitIndex q.index q.count))) := by
  simp only [World.step, hq, hp, Option.some.injEq] at hs
  subst hs
  have hreg : (w.pc p).registering := by simp [hp, Pc.registering]
  constructor
  · intro hc
    rw [if_pos hc]
    exact h.refused_reject (by simp [hq]) hreg _
  · intro hc hbad
    rw [if_neg (by simp [hc]), if_pos hbad]
    exact h.refused_reject (by simp [hq]) hreg _

/-- The locked section refuses a registration that does not match the round in progress, and
one whose slot is taken, each with its error; on a closed multi-session it answers `Closed`. -/
theorem Inv.lock_refused (h : w.Inv) (hq : w.requests p = some q) (hp : w.pc p = .checked) :
    (w.arrived ≠ 0 → (w.slots.length ≠ q.count ∨ w.fields ≠ q.fields) →
        Refused w (w.lock p q) p (.invalidArgument (.roundMismatch q.index q.count))) ∧
      (w.arrived ≠ 0 → w.slots.length = q.count → w.fields = q.fields →
        (w.slots.getD q.index none).isSome →
        Refused w (w.lock p q) p (.invalidArgument (.registeredTwice q.index))) ∧
      (w.Accepts q → w.closed →
        (w.lock p q).refusals p = some (.closed .multiSession) ∧ (w.lock p q).pc p = .done) := by
  have hreg : (w.pc p).registering := by simp [hp, Pc.registering]
  refine ⟨fun h0 hmis => ?_, fun h0 hlen hf hdup => ?_, fun ha hc => ?_⟩
  · rw [World.lock, if_pos ⟨h0, hmis⟩]
    exact h.refused_reject (by simp [hq]) hreg _
  · rw [World.lock, if_neg (by simp [hlen, hf]), if_pos ⟨h0, hdup⟩]
    exact h.refused_reject (by simp [hq]) hreg _
  · rcases lock_cases w p q with ⟨hna, -⟩ | ⟨-, -, hl⟩ | ⟨-, hc', -⟩ | ⟨-, hc', -⟩
    · exact absurd ha hna
    · simp [hl]
    · simp [hc] at hc'
    · simp [hc] at hc'

/-- Once a close has swept the table, a waiting party's round has an outcome or a party running
it. -/
theorem Inv.waiter_served (h : w.Inv) (hc : w.closed) (hs : ∀ x, w.pc x ≠ .sweeping) {x r : Nat}
    (hx : w.pc x = .waiting r) :
    (w.outcome r).isSome ∨ ∃ y outs fs, w.pc y = .running r outs fs := by
  rcases h.waiter x r hx with ⟨-, hm⟩ | ⟨b, hb, rfl, -⟩ | hcl
  · -- a closed table with no sweeper left is empty
    have h0 : w.arrived = 0 := (h.closed_empty hc).resolve_right fun ⟨y, hy⟩ => hs y hy
    rw [h.arrived_eq, List.length_eq_zero_iff] at h0
    rw [h0] at hm
    cases hm
  · cases hnone : w.outcome b.round with
    | none => exact .inr ⟨b.runner, _, _, h.pending_runner b hb hnone⟩
    | some o => exact .inl rfl
  · exact .inl (by rw [hcl]; rfl)

/-- Safety of the rendezvous over every interleaving: a consistent table, each output in one
place, each round handed out once in split order, no waiter stranded after a close, and every
refused registration answered with its error, changing nothing else. -/
theorem rendezvous_safe (hw : w.Reachable) :
    (w.arrived = w.registered.length ∧
      (w.arrived = 0 ∨ 0 < w.arrived ∧ w.arrived < w.slots.length)) ∧
    (∀ x, w.placements x = if w.handed x then 1 else 0) ∧
    ((w.batches.map (·.round)).Nodup ∧
      (∀ x r outs fs, w.pc x = .running r outs fs →
        (⟨r, x, outs, fs⟩ : Batch) ∈ w.batches ∧ w.outcome r = none) ∧
      ∀ b ∈ w.batches, b.runner ∈ b.outputs ∧ ∀ j x, b.outputs[j]? = some x →
        ∃ q, w.requests x = some q ∧ q.index = j ∧ q.count = b.outputs.length ∧
          q.fields = b.fields) ∧
    (∀ p w', w.step (.lock p) = some w' → ((∃ r outs fs, w'.pc p = .running r outs fs) ↔
      w.closed = false ∧ ∃ q, w.requests p = some q ∧ w.Accepts q ∧ w.arrived + 1 = q.count)) ∧
    (w.closed → (∀ x, w.pc x ≠ .sweeping) → ∀ x r, w.pc x = .waiting r →
      (w.outcome r).isSome ∨ ∃ y outs fs, w.pc y = .running r outs fs) ∧
    (∀ p q w', w.requests p = some q →
      (w.pc p = .start → w.step (.check p) = some w' →
        (w.closed → Refused w w' p (.closed .multiSession)) ∧
        (w.closed = false → (q.count = 0 ∨ q.count ≤ q.index) →
          Refused w w' p (.invalidArgument (.splitIndex q.index q.count)))) ∧
      (w.pc p = .checked → w.step (.lock p) = some w' →
        (w.arrived ≠ 0 → (w.slots.length ≠ q.count ∨ w.fields ≠ q.fields) →
          Refused w w' p (.invalidArgument (.roundMismatch q.index q.count))) ∧
        (w.arrived ≠ 0 → w.slots.length = q.count → w.fields = q.fields →
          (w.slots.getD q.index none).isSome →
          Refused w w' p (.invalidArgument (.registeredTwice q.index))) ∧
        (w.Accepts q → w.closed →
          w'.refusals p = some (.closed .multiSession) ∧ w'.pc p = .done))) := by
  have h := hw.inv
  refine ⟨⟨h.arrived_eq, ?_⟩, h.placed, ⟨h.batch_rounds, h.runner_batch,
    fun b hb => ⟨h.batch_runner b hb, h.batch_request b hb⟩⟩, ?_,
    fun hc hs x r hx => h.waiter_served hc hs hx, fun p q w' hq => ⟨fun hp hs =>
      h.check_refused hq hp hs, fun hp hs => ?_⟩⟩
  · by_cases h0 : w.arrived = 0
    · exact .inl h0
    · exact .inr ⟨Nat.pos_of_ne_zero h0, h.armed.resolve_left h0⟩
  · intro p w' hs
    simp only [World.step] at hs
    split at hs
    · rename_i q hq hp
      cases hs
      rw [h.lock_runs hq hp]
      constructor
      · rintro ⟨hc, ha, hcount⟩
        exact ⟨hc, q, hq, ha, hcount⟩
      · rintro ⟨hc, q', hq', ha, hcount⟩
        rw [hq] at hq'
        cases hq'
        exact ⟨hc, ha, hcount⟩
    · cases hs
  · -- a locked section of this registration is the one of its request
    simp only [World.step, hq, hp, Option.some.injEq] at hs
    subst hs
    exact h.lock_refused hq hp

/-- A lone party asking for the one split of one is handed its round when it locks the table. -/
theorem lone_party_runs :
    ((init [.register ⟨[], 0, 1⟩]).moveTo 0 .checked).Reachable ∧
      ∀ w', ((init [.register ⟨[], 0, 1⟩]).moveTo 0 .checked).step (.lock 0) = some w' →
        ∃ r outs fs, w'.pc 0 = .running r outs fs :=
  have hr : ((init [.register ⟨[], 0, 1⟩]).moveTo 0 .checked).Reachable :=
    .step (.check 0) (.init [.register ⟨[], 0, 1⟩]) rfl
  ⟨hr, fun w' hs => ((rendezvous_safe hr).2.2.2.1 0 w' hs).mpr ⟨rfl, _, rfl, .inl rfl, rfl⟩⟩

end World

end Interleaved

end GroupStats
