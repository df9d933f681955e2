import GroupStats.Memory.Ledger
import GroupStats.Proofs.Session.Accounting

/-!
# The books of a ledger

A ledger keeps one reservation and any number of contexts over it, with the claims held against
them. Whatever steps it takes, one at a time, the reservation holds exactly what the contexts
hold and the bytes claimed from it directly, and stays under its ceiling, as long as no step
gives back to the reservation itself more than was claimed from it directly (`books_balance`).

Each context is a pool over the shared reservation (`Ledger.pool`), whose base is what the other
contexts hold and the direct claims. A step through a context therefore keeps the books by the
laws of pools (`Pool.Tracks`), and a step on the reservation itself moves only the direct claims.

Along the way every step does what its name says: a claim that fails reports what was asked and
what was left and changes nothing; a release through a context, or the drop of a held claim,
gives back at most what the context holds; and closing a context gives back all it holds,
reports that as a leak unless it is nothing, and leaves the context empty, so that a claim
dropped afterwards gives back nothing.
-/

namespace GroupStats

namespace Memory

namespace Reservation

variable {r : Reservation} {bytes : UInt64} {e : Error}

theorem available_eq (h : r.used.toNat ≤ r.ceiling.toNat) : r.available = r.ceiling - r.used := by
  simp [available, UInt64.le_iff_toNat_le, h]

theorem claim_eq_error :
    r.claim bytes = .error e ↔ r.ceiling.toNat < r.used.toNat + bytes.toNat ∧
      e = .outOfMemory bytes r.available := by
  unfold claim
  split
  · simp only [reduceCtorEq, false_iff, not_and]
    omega
  · simp only [Except.error.injEq]
    constructor
    · rintro rfl
      exact ⟨by omega, rfl⟩
    · rintro ⟨-, rfl⟩
      rfl

@[simp] theorem ceiling_release (r : Reservation) (bytes : UInt64) :
    (r.release bytes).ceiling = r.ceiling := rfl

end Reservation

namespace Pool

variable {p p' : Pool} {bytes : UInt64} {e : Error}

theorem ceiling_claim (h : p.claim bytes = .ok p') : p'.reservation.ceiling = p.reservation.ceiling := by
  unfold Pool.claim at h
  cases hr : p.reservation.claim bytes with
  | error e => simp [hr, bind, Except.bind] at h
  | ok r =>
    simp only [hr, bind, Except.bind, pure, Except.pure, Except.ok.injEq] at h
    subst h
    rw [(Reservation.claim_eq_ok.mp hr).2]

/-- A claim through a context fails as the reservation's claim does. -/
theorem claim_eq_error :
    p.claim bytes = .error e ↔ p.reservation.claim bytes = .error e := by
  unfold Pool.claim
  cases p.reservation.claim bytes <;> simp [bind, Except.bind, pure, Except.pure]

@[simp] theorem ceiling_release (p : Pool) (bytes : UInt64) :
    (p.release bytes).reservation.ceiling = p.reservation.ceiling := rfl

@[simp] theorem ceiling_close (p : Pool) : p.close.1.reservation.ceiling = p.reservation.ceiling := by
  simp only [Pool.close]
  split <;> rfl

/-- Giving back through an empty context gives back nothing. -/
theorem release_of_held_eq_zero (h : p.held = 0) (bytes : UInt64) :
    (p.release bytes).used = p.used ∧ (p.release bytes).held = 0 := by
  have hz : min (0 : UInt64) bytes = 0 := UInt64.toNat_inj.mp (by simp [UInt64.toNat_min])
  have hz' : min p.reservation.used 0 = 0 := UInt64.toNat_inj.mp (by simp [UInt64.toNat_min])
  simp only [held] at h
  simp [Pool.release, Reservation.release, used, held, h, hz, hz']

end Pool

namespace Ledger

/-! ### Counters -/

/-- The bytes in use in the reservation. -/
def used (l : Ledger) : Nat := l.reservation.used.toNat

/-- The bytes context `i` holds; nothing for a context the ledger does not have. -/
def held (l : Ledger) (i : Nat) : Nat := (l.contexts.getD i {}).used.toNat

/-- The bytes all contexts hold together. -/
def heldAll (l : Ledger) : Nat := (l.holdings.map UInt64.toNat).sum

variable {l l' : Ledger} {c : UInt64} {d : Nat} {i j : Nat} {b : UInt64} {p : Pool}

@[simp] theorem used_pool (l : Ledger) (i : Nat) : (l.pool i).used.toNat = l.used := rfl

@[simp] theorem held_pool (l : Ledger) (i : Nat) : (l.pool i).held.toNat = l.held i := rfl

@[simp] theorem used_setPool (l : Ledger) (i : Nat) (p : Pool) :
    (l.setPool i p).used = p.used.toNat := rfl

@[simp] theorem ceiling_setPool (l : Ledger) (i : Nat) (p : Pool) :
    (l.setPool i p).reservation.ceiling = p.reservation.ceiling := rfl

@[simp] theorem length_setPool (l : Ledger) (i : Nat) (p : Pool) :
    (l.setPool i p).contexts.length = l.contexts.length := by
  simp [setPool]

@[simp] theorem claims_setPool (l : Ledger) (i : Nat) (p : Pool) :
    (l.setPool i p).claims = l.claims := rfl

theorem held_setPool_self (hi : i < l.contexts.length) (p : Pool) :
    (l.setPool i p).held i = p.held.toNat := by
  simp [held, setPool, List.getD_eq_getElem?_getD, hi, Pool.held]

theorem held_setPool_of_ne (h : j ≠ i) (p : Pool) : (l.setPool i p).held j = l.held j := by
  simp [held, setPool, List.getD_eq_getElem?_getD, List.getElem?_set_ne (Ne.symm h)]

/-- A list of numbers with one entry replaced sums, with the old entry, to the old sum with the
new entry. -/
theorem sum_set_add {xs : List Nat} {k : Nat} (hk : k < xs.length) (x : Nat) :
    (xs.set k x).sum + xs[k] = xs.sum + x := by
  induction xs generalizing k with
  | nil => cases hk
  | cons y ys ih =>
    cases k with
    | zero => simp; omega
    | succ k =>
      have := ih (Nat.lt_of_succ_lt_succ hk)
      simp only [List.set_cons_succ, List.sum_cons, List.getElem_cons_succ]
      omega

/-- Writing back the pool of a context changes what the contexts hold together by what that
context holds. -/
theorem heldAll_setPool (hi : i < l.contexts.length) (p : Pool) :
    (l.setPool i p).heldAll + l.held i = l.heldAll + p.held.toNat := by
  have hk : i < (l.contexts.map fun x => x.used.toNat).length := by simpa using hi
  have := sum_set_add hk p.held.toNat
  simp only [List.getElem_map] at this
  simp only [heldAll, holdings, setPool, held, List.map_map, Function.comp_def, List.map_set,
    List.getD_eq_getElem?_getD, List.getElem?_eq_getElem hi, Option.getD_some, Pool.held]
  simpa [Pool.held] using this

theorem held_le_heldAll (hi : i < l.contexts.length) : l.held i ≤ l.heldAll := by
  have := heldAll_setPool hi ⟨l.reservation, {}⟩
  simp only [Pool.held] at this
  simp at this
  omega

/-! ### The books -/

/-- The books of a ledger with ceiling `c` in which `d` bytes were claimed from the reservation
itself and not given back: the reservation holds what the contexts hold and those bytes, under
its ceiling, and every held claim is against a context the ledger has. -/
structure Books (c : UInt64) (l : Ledger) (d : Nat) : Prop where
  ceiling : l.reservation.ceiling = c
  used_eq : l.used = l.heldAll + d
  within : l.used ≤ c.toNat
  named : ∀ cl ∈ l.claims, cl.context < l.contexts.length

/-- Seen through one of its contexts, a ledger is a pool whose base is what the other contexts
hold and the direct claims. -/
theorem Books.tracks (h : l.Books c d) (hi : i < l.contexts.length) :
    (l.pool i).Tracks (l.heldAll - l.held i + d) where
  used_eq := by
    have := held_le_heldAll hi
    simp only [used_pool, held_pool, h.used_eq]
    omega
  within := by
    rw [used_pool]
    exact h.ceiling ▸ h.within

/-- Writing back a pool over the same base and ceiling keeps the books. -/
theorem Books.setPool (h : l.Books c d) (hi : i < l.contexts.length)
    (hp : p.Tracks (l.heldAll - l.held i + d)) (hc : p.reservation.ceiling = c) :
    (l.setPool i p).Books c d where
  ceiling := hc
  used_eq := by
    have := heldAll_setPool hi p
    have := held_le_heldAll hi
    have := hp.used_eq
    simp only [Pool.used] at this
    simp only [used_setPool, Pool.used]
    omega
  within := by simpa [Pool.used, hc] using hp.within
  named cl hcl := by simpa using h.named cl hcl

/-! ### Each kind of step keeps the books -/

theorem claim_eq_ok : l.claim b = .ok l' ↔
    l.used + b.toNat ≤ l.reservation.ceiling.toNat ∧
      l' = { l with reservation := { l.reservation with used := l.reservation.used + b } } := by
  unfold Ledger.claim
  cases hr : l.reservation.claim b with
  | error e =>
    have := (Reservation.claim_eq_error.mp hr).1
    simp only [Functor.map, Except.map, reduceCtorEq, false_iff, not_and, used]
    omega
  | ok r =>
    obtain ⟨hfit, rfl⟩ := Reservation.claim_eq_ok.mp hr
    simp only [Functor.map, Except.map, Except.ok.injEq, used, hfit, true_and]
    exact eq_comm

theorem claim_eq_error {e : Error} : l.claim b = .error e ↔ l.reservation.claim b = .error e := by
  unfold Ledger.claim
  cases l.reservation.claim b <;> simp [Functor.map, Except.map]

/-- A direct claim that goes through adds its bytes to the direct claims. -/
theorem Books.claim (h : l.Books c d) (hl : l.claim b = .ok l') : l'.Books c (d + b.toNat) := by
  obtain ⟨hfit, rfl⟩ := claim_eq_ok.mp hl
  have hceil := l.reservation.ceiling.toNat_lt
  simp only [used] at hfit
  have hsum : (l.reservation.used + b).toNat = l.used + b.toNat := by
    rw [UInt64.toNat_add, Nat.mod_eq_of_lt (by omega)]
    rfl
  exact
    { ceiling := h.ceiling
      used_eq := by
        simp only [used, hsum, heldAll, holdings] at h ⊢
        have := h.used_eq
        simp only [used, heldAll, holdings] at this
        omega
      within := by
        simp only [used, hsum]
        exact h.ceiling ▸ hfit
      named := h.named }

/-- A direct release of at most the direct claims takes its bytes from them. -/
theorem Books.release (h : l.Books c d) (hb : b.toNat ≤ d) : (l.release b).Books c (d - b.toNat) := by
  have hu := h.used_eq
  have hle : b ≤ l.reservation.used := UInt64.le_iff_toNat_le.mpr (by simp only [used] at hu; omega)
  have hmin : min l.reservation.used b = b :=
    UInt64.toNat_inj.mp (by rw [UInt64.toNat_min]; exact Nat.min_eq_right (UInt64.le_iff_toNat_le.mp hle))
  have hsub : (l.release b).used = l.used - b.toNat := by
    simp [Ledger.release, Reservation.release, used, hmin, UInt64.toNat_sub_of_le _ _ hle]
  exact
    { ceiling := h.ceiling
      used_eq := by
        rw [hsub]
        simp only [heldAll, holdings, Ledger.release] at hu ⊢
        omega
      within := by
        have := h.within
        rw [hsub]
        omega
      named := h.named }

theorem Books.addContext (h : l.Books c d) : l.addContext.1.Books c d where
  ceiling := h.ceiling
  used_eq := by simpa [Ledger.addContext, used, heldAll, holdings] using h.used_eq
  within := h.within
  named cl hcl := by
    simp only [Ledger.addContext, List.length_append, List.length_singleton]
    have := h.named cl hcl
    omega

theorem claimIn_eq_ok {i : Nat} : l.claimIn i b = .ok l' ↔ ∃ p, (l.pool i).claim b = .ok p ∧ l' = l.setPool i p := by
  unfold Ledger.claimIn
  cases (l.pool i).claim b <;> simp [Functor.map, Except.map, eq_comm]

theorem claimIn_eq_error {i : Nat} {e : Error} :
    l.claimIn i b = .error e ↔ l.reservation.claim b = .error e := by
  unfold Ledger.claimIn
  rw [← show (l.pool i).reservation = l.reservation from rfl, ← Pool.claim_eq_error]
  cases (l.pool i).claim b <;> simp [Functor.map, Except.map]

/-- A claim through a context that goes through adds its bytes to the context. -/
theorem Books.claimIn (h : l.Books c d) (hi : i < l.contexts.length) (hl : l.claimIn i b = .ok l') :
    l'.Books c d := by
  obtain ⟨p, hp, rfl⟩ := claimIn_eq_ok.mp hl
  exact h.setPool hi (h.tracks hi |>.claim hp).1 ((Pool.ceiling_claim hp).trans h.ceiling)

/-- A release through a context gives back at most what the context holds, and only from it. -/
theorem Books.releaseIn (h : l.Books c d) (hi : i < l.contexts.length) (b : UInt64) :
    (l.releaseIn i b).Books c d ∧ (l.releaseIn i b).used + min (l.held i) b.toNat = l.used ∧
      (l.releaseIn i b).held i = l.held i - min (l.held i) b.toNat := by
  obtain ⟨ht, hheld⟩ := (h.tracks hi).release b
  have hu := ht.used_eq
  have hu₀ := (h.tracks hi).used_eq
  simp only [used_pool, held_pool] at hu₀
  refine ⟨h.setPool hi ht h.ceiling, ?_, ?_⟩
  · have hgoal : (l.releaseIn i b).used = ((l.pool i).release b).used.toNat := rfl
    rw [held_pool] at hheld
    rw [hgoal, hu, hheld]
    omega
  · rw [Ledger.releaseIn, held_setPool_self hi, hheld, held_pool]
    omega

theorem closeContext_eq (l : Ledger) (i : Nat) :
    l.closeContext i = (l.setPool i (l.pool i).close.1, (l.pool i).close.2) := rfl

/-- Closing a context gives back all it holds, leaves it empty, and reports what it held as a
leak unless that is nothing. -/
theorem Books.closeContext (h : l.Books c d) (hi : i < l.contexts.length) :
    (l.closeContext i).1.Books c d ∧ (l.closeContext i).1.used + l.held i = l.used ∧
      (l.closeContext i).1.held i = 0 ∧
      (l.closeContext i).2 = if l.held i = 0 then .ok () else .error (.memoryLeak (l.pool i).held) := by
  obtain ⟨ht, hzero, hout⟩ := (h.tracks hi).close
  have hu := ht.used_eq
  have hu₀ := (h.tracks hi).used_eq
  simp only [used_pool, held_pool] at hu₀
  rw [closeContext_eq]
  refine ⟨h.setPool hi ht (by rw [Pool.ceiling_close]; exact h.ceiling), ?_, ?_, ?_⟩
  · simp only [used_setPool, Pool.used] at hu ⊢
    rw [hzero] at hu
    simp only [UInt64.toNat_zero] at hu
    omega
  · rw [held_setPool_self hi, hzero, UInt64.toNat_zero]
  · have hz : (l.pool i).held = 0 ↔ l.held i = 0 := by
      rw [← held_pool, ← UInt64.toNat_zero, UInt64.toNat_inj]
    rw [hout]
    simp only [hz]

theorem hold_eq_ok {n : Nat} : l.hold i b = .ok (l', n) ↔ ∃ l'', l.claimIn i b = .ok l'' ∧
    l' = { l'' with claims := l''.claims ++ [{ context := i, bytes := b }] } ∧ n = l.claims.length := by
  unfold Ledger.hold
  cases l.claimIn i b <;> simp [bind, Except.bind, pure, Except.pure, eq_comm, and_comm]

theorem hold_eq_error {e : Error} : l.hold i b = .error e ↔ l.claimIn i b = .error e := by
  unfold Ledger.hold
  cases l.claimIn i b <;> simp [bind, Except.bind, pure, Except.pure]

theorem Books.hold (h : l.Books c d) (hi : i < l.contexts.length) {n : Nat}
    (hl : l.hold i b = .ok (l', n)) : l'.Books c d := by
  obtain ⟨l'', hc, rfl, -⟩ := hold_eq_ok.mp hl
  have h'' := h.claimIn hi hc
  obtain ⟨p, -, rfl⟩ := claimIn_eq_ok.mp hc
  exact
    { ceiling := h''.ceiling
      used_eq := h''.used_eq
      within := h''.within
      named cl hcl := by
        rcases List.mem_append.mp hcl with hcl | hcl
        · exact h''.named cl hcl
        · rw [List.mem_singleton.mp hcl]
          simpa using hi }

/-- Dropping a held claim gives back its bytes through its context the first time only. -/
theorem drop_eq (l : Ledger) (n : Nat) :
    l.drop n = match l.claims[n]?.filter (·.live) with
      | some cl => { l.releaseIn cl.context cl.bytes with
          claims := l.claims.set n { cl with live := false } }
      | none => l := by
  unfold Ledger.drop
  cases l.claims[n]? with
  | none => rfl
  | some cl => cases hl : cl.live <;> simp [hl, Option.filter, releaseIn, setPool]

theorem Books.drop (h : l.Books c d) (n : Nat) : (l.drop n).Books c d := by
  rw [drop_eq]
  cases hcl : l.claims[n]?.filter (·.live) with
  | none => exact h
  | some cl =>
    obtain ⟨hget, -⟩ := Option.filter_eq_some_iff.mp hcl
    have h' := (h.releaseIn (h.named cl (List.mem_of_getElem? hget)) cl.bytes).1
    refine { h' with named := fun cl' hcl' => ?_ }
    rcases List.mem_or_eq_of_mem_set hcl' with hcl' | rfl
    · exact h'.named cl' hcl'
    · exact h'.named cl (List.mem_of_getElem? hget)

/-- Dropping a claim held against a context that holds nothing gives back nothing. -/
theorem used_drop_of_held_eq_zero {n : Nat} {cl : Claim} (hcl : l.claims[n]? = some cl)
    (h0 : l.held cl.context = 0) : (l.drop n).used = l.used := by
  rw [drop_eq]
  cases hf : l.claims[n]?.filter (·.live) with
  | none => rfl
  | some cl' =>
    rw [hcl, Option.filter_eq_some_iff] at hf
    obtain ⟨hsome, -⟩ := hf
    cases hsome
    have hz : (l.pool cl.context).held = 0 := by
      rw [← UInt64.toNat_inj, held_pool, h0, UInt64.toNat_zero]
    exact congrArg UInt64.toNat (Pool.release_of_held_eq_zero hz cl.bytes).1

/-! ### Steps -/

section Steps

variable {e : Error} {n : Nat}

theorem apply_claim_of_ok (h : l.claim b = .ok l') : (step (.claim b)).apply l = (.ok .done, l') := by
  simp [step, h]

theorem apply_claim_of_error (h : l.claim b = .error e) : (step (.claim b)).apply l = (.error e, l) := by
  simp [step, h]

@[simp] theorem apply_release : (step (.release b)).apply l = (.ok .done, l.release b) := by
  simp [step]

@[simp] theorem apply_addContext :
    (step .addContext).apply l = (.ok (.context l.contexts.length), l.addContext.1) := by
  simp [step, Ledger.addContext]

theorem apply_claimIn_of_ok (h : l.claimIn i b = .ok l') :
    (step (.claimIn i b)).apply l = (.ok .done, l') := by
  simp [step, h]

theorem apply_claimIn_of_error (h : l.claimIn i b = .error e) :
    (step (.claimIn i b)).apply l = (.error e, l) := by
  simp [step, h]

@[simp] theorem apply_releaseIn : (step (.releaseIn i b)).apply l = (.ok .done, l.releaseIn i b) := by
  simp [step]

@[simp] theorem apply_closeContext :
    (step (.closeContext i)).apply l = ((l.closeContext i).2.map fun _ => .done, (l.closeContext i).1) := by
  simp [step]

theorem apply_hold_of_ok (h : l.hold i b = .ok (l', n)) :
    (step (.hold i b)).apply l = (.ok (.held n b), l') := by
  simp [step, h]

theorem apply_hold_of_error (h : l.hold i b = .error e) : (step (.hold i b)).apply l = (.error e, l) := by
  simp [step, h]

@[simp] theorem apply_drop : (step (.drop n)).apply l = (.ok .done, l.drop n) := by
  simp [step]

end Steps

/-- The bytes claimed from the reservation itself and not given back, after a step with the given
outcome: a direct claim that goes through adds its bytes, a direct release takes its bytes. -/
def Event.direct : Event → Except Error Outcome → Nat → Nat
  | .claim b, .ok _, d => d + b.toNat
  | .release b, _, d => d - b.toNat
  | _, _, d => d

/-- A step names only contexts the ledger has. -/
def Event.Names (l : Ledger) : Event → Prop
  | .claimIn i _ | .releaseIn i _ | .closeContext i | .hold i _ => i < l.contexts.length
  | _ => True

instance (l : Ledger) : (ev : Event) → Decidable (ev.Names l)
  | .claimIn i _ | .releaseIn i _ | .closeContext i | .hold i _ =>
    inferInstanceAs (Decidable (i < l.contexts.length))
  | .claim _ | .release _ | .addContext | .drop _ => isTrue trivial

/-- Every step that names only contexts the ledger has, and gives back to the reservation itself at
most what was claimed from it directly, keeps the books. -/
theorem Books.step (h : l.Books c d) {ev : Event} (hn : ev.Names l)
    (hd : ∀ b, ev = .release b → b.toNat ≤ d) :
    ((step ev).apply l).2.Books c (ev.direct ((step ev).apply l).1 d) := by
  cases ev with
  | claim b =>
    cases hl : l.claim b with
    | ok l' => rw [apply_claim_of_ok hl]; exact h.claim hl
    | error err => rw [apply_claim_of_error hl]; exact h
  | release b =>
    rw [apply_release]
    exact h.release (hd b rfl)
  | addContext =>
    rw [apply_addContext]
    exact h.addContext
  | claimIn i b =>
    cases hl : l.claimIn i b with
    | ok l' => rw [apply_claimIn_of_ok hl]; exact h.claimIn hn hl
    | error err => rw [apply_claimIn_of_error hl]; exact h
  | releaseIn i b =>
    rw [apply_releaseIn]
    exact (h.releaseIn hn b).1
  | closeContext i =>
    rw [apply_closeContext]
    exact (h.closeContext hn).1
  | hold i b =>
    cases hl : l.hold i b with
    | ok r =>
      obtain ⟨l', n⟩ := r
      rw [apply_hold_of_ok hl]
      exact h.hold hn hl
    | error err => rw [apply_hold_of_error hl]; exact h
  | drop n =>
    rw [apply_drop]
    exact h.drop n

/-! ### What each step does -/

/-- What a step asks of the reservation, when it claims. -/
def Event.request : Event → Option UInt64
  | .claim b | .claimIn _ b | .hold _ b => some b
  | _ => none

/-- The context a step gives bytes back through, with the bytes it gives back at most: a release
through a context, or the first drop of a held claim. -/
def Event.giveBack (l : Ledger) : Event → Option (Nat × UInt64)
  | .releaseIn i b => some (i, b)
  | .drop n => (l.claims[n]?.filter (·.live)).map fun cl => (cl.context, cl.bytes)
  | _ => none

/-- What every step from a ledger with ceiling `c` does to its counters: a failed claim reports the
bytes asked and left and changes nothing, a release or a dropped claim gives back at most what its
context holds, and closing a context empties it, reporting a leak unless it held nothing. -/
structure Laws (c : UInt64) (l : Ledger) : Prop where
  refused : ∀ (ev : Event) (b : UInt64), ev.request = some b → ∀ err,
    ((step ev).apply l).1 = .error err →
      err = .outOfMemory b (c - l.reservation.used) ∧ ((step ev).apply l).2 = l
  clamped : ∀ (ev : Event) (i : Nat) (b : UInt64), ev.Names l → ev.giveBack l = some (i, b) →
    ((step ev).apply l).2.used + min (l.held i) b.toNat = l.used ∧
      ((step ev).apply l).2.held i = l.held i - min (l.held i) b.toNat
  closes : ∀ i, i < l.contexts.length →
    let r := (step (.closeContext i)).apply l
    (r.1 = .ok .done ↔ l.held i = 0) ∧
    (l.held i ≠ 0 → r.1 = .error (.memoryLeak (l.contexts.getD i {}).used)) ∧
    r.2.used + l.held i = l.used ∧ r.2.held i = 0 ∧
    ∀ n cl, r.2.claims[n]? = some cl → cl.context = i → ((step (.drop n)).apply r.2).2.used = r.2.used

/-- The reservation refuses a claim past its ceiling with the bytes asked and the bytes left. -/
theorem Books.refuses (h : l.Books c d) {err : Error} (hr : l.reservation.claim b = .error err) :
    err = .outOfMemory b (c - l.reservation.used) := by
  rw [(Reservation.claim_eq_error.mp hr).2, Reservation.available_eq (h.ceiling ▸ h.within), h.ceiling]

theorem Books.refused (h : l.Books c d) {ev : Event} (hr : ev.request = some b) {err : Error}
    (he : ((Ledger.step ev).apply l).1 = .error err) :
    err = .outOfMemory b (c - l.reservation.used) ∧ ((Ledger.step ev).apply l).2 = l := by
  cases ev with
  | claim b' =>
    have hb : b' = b := Option.some.inj hr
    subst hb
    cases hl : l.claim b' with
    | ok l' => rw [apply_claim_of_ok hl] at he; cases he
    | error err' =>
      rw [apply_claim_of_error hl] at he ⊢
      cases he
      exact ⟨h.refuses (claim_eq_error.mp hl), rfl⟩
  | claimIn i b' =>
    have hb : b' = b := Option.some.inj hr
    subst hb
    cases hl : l.claimIn i b' with
    | ok l' => rw [apply_claimIn_of_ok hl] at he; cases he
    | error err' =>
      rw [apply_claimIn_of_error hl] at he ⊢
      cases he
      exact ⟨h.refuses (claimIn_eq_error.mp hl), rfl⟩
  | hold i b' =>
    have hb : b' = b := Option.some.inj hr
    subst hb
    cases hl : l.hold i b' with
    | ok r => rw [apply_hold_of_ok hl] at he; cases he
    | error err' =>
      rw [apply_hold_of_error hl] at he ⊢
      cases he
      exact ⟨h.refuses (claimIn_eq_error.mp (hold_eq_error.mp hl)), rfl⟩
  | release | addContext | releaseIn | closeContext | drop => cases hr

theorem Books.clamped (h : l.Books c d) {ev : Event} (hn : ev.Names l)
    (hg : ev.giveBack l = some (i, b)) :
    ((Ledger.step ev).apply l).2.used + min (l.held i) b.toNat = l.used ∧
      ((Ledger.step ev).apply l).2.held i = l.held i - min (l.held i) b.toNat := by
  cases ev with
  | releaseIn i' b' =>
    cases hg
    rw [apply_releaseIn]
    exact (h.releaseIn hn b).2
  | drop n =>
    obtain ⟨cl, hcl, hib⟩ := Option.map_eq_some_iff.mp hg
    cases hib
    obtain ⟨hget, -⟩ := Option.filter_eq_some_iff.mp hcl
    rw [apply_drop, drop_eq, hcl]
    -- the drop moves the counters as the release through the claim's context does
    exact (h.releaseIn (h.named cl (List.mem_of_getElem? hget)) cl.bytes).2
  | claim | release | addContext | claimIn | closeContext | hold => cases hg

theorem Books.closes (h : l.Books c d) (hi : i < l.contexts.length) :
    let r := (Ledger.step (.closeContext i)).apply l
    (r.1 = .ok .done ↔ l.held i = 0) ∧
    (l.held i ≠ 0 → r.1 = .error (.memoryLeak (l.contexts.getD i {}).used)) ∧
    r.2.used + l.held i = l.used ∧ r.2.held i = 0 ∧
    ∀ n cl, r.2.claims[n]? = some cl → cl.context = i →
      ((Ledger.step (.drop n)).apply r.2).2.used = r.2.used := by
  obtain ⟨-, hused, hzero, hout⟩ := h.closeContext hi
  simp only [apply_closeContext, hout]
  refine ⟨?_, ?_, hused, hzero, ?_⟩
  · by_cases h0 : l.held i = 0 <;> simp [h0]
  · intro h0
    simp [h0, Ledger.pool, Pool.held]
  · rintro n cl hcl rfl
    rw [apply_drop]
    exact used_drop_of_held_eq_zero hcl hzero

theorem Books.laws (h : l.Books c d) : l.Laws c where
  refused _ _ hr _ he := h.refused hr he
  clamped _ _ _ hn hg := h.clamped hn hg
  closes _ hi := h.closes hi

/-! ### Runs -/

/-- The ledgers a run of steps reaches from a fresh ledger with ceiling `c`, with the bytes
claimed from the reservation itself and not given back. Each step names only contexts the
ledger has, and gives back to the reservation itself at most what was claimed from it
directly. -/
inductive Run (c : UInt64) : Ledger → Nat → Prop
  | start : Run c (create c) 0
  | step {l : Ledger} {d : Nat} (ev : Event) : Run c l d → ev.Names l →
      (∀ b, ev = .release b → b.toNat ≤ d) →
      Run c ((Ledger.step ev).apply l).2 (ev.direct ((Ledger.step ev).apply l).1 d)

theorem books_create (c : UInt64) : (create c).Books c 0 where
  ceiling := rfl
  used_eq := rfl
  within := Nat.zero_le _
  named _ hcl := by cases hcl

theorem Run.books (h : l.Run c d) : l.Books c d := by
  induction h with
  | start => exact books_create c
  | step ev _ hn hd ih => exact ih.step hn hd

/-- Along every run on one reservation and its contexts that never gives back more than it claimed
directly, the reservation holds exactly what the contexts hold and its direct claims, under its
ceiling. Every step from there does what its name says (`Laws`). -/
theorem books_balance (h : l.Run c d) : l.Books c d ∧ l.Laws c :=
  ⟨h.books, h.books.laws⟩

/-- A context holds a claim of 30 bytes, 20 more bytes are claimed directly, and the context is
closed with the claim still held: the 30 bytes go back as a leak, and the books balance with the
direct claim alone. -/
theorem books_balance_after_leak :
    let l : Ledger :=
      { reservation := { ceiling := 100, used := 20 }
        contexts := [{ used := 0 }]
        claims := [{ context := 0, bytes := 30 }] }
    l.Run 100 20 ∧ l.Books 100 20 ∧ l.Laws 100 := by
  intro l
  have h₁ := Run.step (c := 100) .addContext .start trivial (by simp)
  have h₂ := Run.step (.hold 0 30) h₁ (by decide) (by simp)
  have h₃ := Run.step (.claim 20) h₂ trivial (by simp)
  have h₄ := Run.step (.closeContext 0) h₃ (by decide) (by simp)
  have h : l.Run 100 20 := h₄
  exact ⟨h, books_balance h⟩

end Ledger

end Memory

end GroupStats
