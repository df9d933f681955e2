import GroupStats.Proofs.Split.Fanout

/-!
# Splitting under a shared spill budget

The spill buffers of a split may share a budget of `B` bytes. Charged to it, the buffers take a
write exactly as the unbounded buffers do while the bytes they hold stay within `B`, and refuse
it, with nothing appended and nothing charged, once they would not (`SpillArea.write_charged`).
The buffers held against the budget are the unbounded buffers with the budget spent on what
they hold (`SpillArea.charged`).

Every step of a split follows this pattern (`Step.Capped`): run on charged buffers, it does what
it does on the unbounded ones as long as they stay within the budget, and otherwise fails with
the write limit in a state that is again charged and within the budget. Routing is built from
such steps; closing the writers catches each failure, so a refused drain leaves the later
writers to close on their own. So a split under a budget succeeds exactly when the encodings of
its parts fit in the budget together, and then leaves the unbounded split's buffers with the
budget spent on them; otherwise it fails with the capacity of the budget exceeded, and the
buffers still hold no more than was charged.
-/

namespace GroupStats

namespace Step

variable {σ α β : Type}

/-- A way to charge states to a cap: `lift s` is the state `s` charged, `used s` what `s`
spends of the cap, and `good` the states the charge is meant for. A step that would go past the
cap fails with `err`. -/
structure Charge (σ : Type) where
  lift : σ → σ
  used : σ → Nat
  good : σ → Prop
  cap : Nat
  err : Error

/-- The charge of a part of a larger state, read through `get` and put back with `put`. -/
def Charge.focus {τ : Type} (c : Charge σ) (get : τ → σ) (put : τ → σ → τ) : Charge τ where
  lift t := put t (c.lift (get t))
  used t := c.used (get t)
  good t := c.good (get t)
  cap := c.cap
  err := c.err

/-- Run on a charged state, the step `x` does what it does on the plain state as long as the
plain state it leaves stays within the cap; past the cap it fails with the charge's error in a
charged state that is still within the cap. On good plain states it keeps them good and never
lowers what they use. -/
structure Capped (c : Charge σ) (x : Step σ α) : Prop where
  good : ∀ s, c.good s → c.good (x.apply s).2
  grows : ∀ s, c.good s → c.used s ≤ c.used (x.apply s).2
  fits : ∀ s, c.good s → c.used (x.apply s).2 ≤ c.cap →
    x.apply (c.lift s) = ((x.apply s).1, c.lift (x.apply s).2)
  stops : ∀ s, c.good s → c.used s ≤ c.cap → c.cap < c.used (x.apply s).2 →
    ∃ t, c.good t ∧ c.used t ≤ c.cap ∧ x.apply (c.lift s) = (.error c.err, c.lift t)

namespace Capped

variable {c : Charge σ}

/-- A step that keeps states good, uses nothing of the cap, and commutes with the charge is
capped. -/
theorem of_commutes {x : Step σ α} (hgood : ∀ s, c.good s → c.good (x.apply s).2)
    (hused : ∀ s, c.used (x.apply s).2 = c.used s)
    (hlift : ∀ s, x.apply (c.lift s) = ((x.apply s).1, c.lift (x.apply s).2)) : Capped c x where
  good := hgood
  grows s _ := Nat.le_of_eq (hused s).symm
  fits s _ _ := hlift s
  stops s _ hin hover := absurd hin (by rw [hused] at hover; omega)

theorem pure' (a : α) : Capped c (pure a : Step σ α) :=
  of_commutes (fun _ h => h) (fun _ => rfl) fun _ => rfl

theorem throw' (e : Error) : Capped c (throw e : Step σ α) :=
  of_commutes (fun _ h => h) (fun _ => rfl) fun _ => rfl

theorem bind' {x : Step σ α} {f : α → Step σ β} (hx : Capped c x) (hf : ∀ a, Capped c (f a)) :
    Capped c (x >>= f) where
  good s hs := by
    have hg := hx.good s hs
    rw [apply_bind]
    rcases h : x.apply s with ⟨_ | a, s₁⟩ <;> rw [h] at hg
    · exact hg
    · exact (hf a).good s₁ hg
  grows s hs := by
    have hg := hx.good s hs
    have hu := hx.grows s hs
    rw [apply_bind]
    rcases h : x.apply s with ⟨_ | a, s₁⟩ <;> rw [h] at hg hu
    · exact hu
    · exact Nat.le_trans hu ((hf a).grows s₁ hg)
  fits s hs hfit := by
    have hg := hx.good s hs
    have hfx := hx.fits s hs
    rcases h : x.apply s with ⟨_ | a, s₁⟩ <;> simp only [h] at hg hfx <;>
      simp only [apply_bind, h] at hfit ⊢
    · rw [hfx hfit]
    · -- what `f a` uses only grows, so `x` stayed within the cap too
      have h₁ : c.used s₁ ≤ c.cap := Nat.le_trans ((hf a).grows s₁ hg) hfit
      rw [hfx h₁]
      exact (hf a).fits s₁ hg hfit
  stops s hs hin hover := by
    have hg := hx.good s hs
    have hfx := hx.fits s hs
    have hsx := hx.stops s hs hin
    rcases h : x.apply s with ⟨_ | a, s₁⟩ <;> simp only [h] at hg hfx hsx <;>
      simp only [apply_bind, h] at hover ⊢
    · obtain ⟨t, ht, htu, hxt⟩ := hsx hover
      exact ⟨t, ht, htu, by rw [hxt]⟩
    · by_cases h₁ : c.used s₁ ≤ c.cap
      · -- `x` stayed within the cap and `f a` went past it
        rw [hfx h₁]
        exact (hf a).stops s₁ hg h₁ hover
      · obtain ⟨t, ht, htu, hxt⟩ := hsx (by omega)
        exact ⟨t, ht, htu, by rw [hxt]⟩

theorem ite' {p : Prop} [Decidable p] {x y : Step σ α} (hx : Capped c x) (hy : Capped c y) :
    Capped c (if p then x else y) := by
  split
  · exact hx
  · exact hy

/-- A step that reads the state is capped when each of its continuations is and the
continuation reads nothing the charge changes. -/
theorem get_bind {f : σ → Step σ α} (hf : ∀ s, Capped c (f s))
    (hlift : ∀ s, f (c.lift s) = f s) : Capped c (get >>= f) where
  good s hs := by simpa using (hf s).good s hs
  grows s hs := by simpa using (hf s).grows s hs
  fits s hs hfit := by simpa [hlift] using (hf s).fits s hs (by simpa using hfit)
  stops s hs hin hover := by simpa [hlift] using (hf s).stops s hs hin (by simpa using hover)

/-- A change of the state that keeps it good, uses no more, and commutes with the charge. -/
theorem modify' {g : σ → σ} (hgood : ∀ s, c.good s → c.good (g s))
    (hused : ∀ s, c.used (g s) = c.used s) (hlift : ∀ s, g (c.lift s) = c.lift (g s)) :
    Capped c (modify g) :=
  of_commutes hgood hused fun s => by simp [hlift]

/-- A step that runs, from each good state, as a capped step from a good state that uses as
much, on plain and charged states alike, is capped. -/
theorem of_reduce {x : Step σ α}
    (h : ∀ s, c.good s → ∃ (y : Step σ α) (t : σ), Capped c y ∧ c.good t ∧ c.used t = c.used s ∧
      x.apply s = y.apply t ∧ x.apply (c.lift s) = y.apply (c.lift t)) : Capped c x where
  good s hs := by
    obtain ⟨y, t, hy, ht, -, hxs, -⟩ := h s hs
    rw [hxs]
    exact hy.good t ht
  grows s hs := by
    obtain ⟨y, t, hy, ht, hut, hxs, -⟩ := h s hs
    rw [hxs, ← hut]
    exact hy.grows t ht
  fits s hs hfit := by
    obtain ⟨y, t, hy, ht, -, hxs, hxl⟩ := h s hs
    rw [hxs] at hfit ⊢
    rw [hxl]
    exact hy.fits t ht hfit
  stops s hs hin hover := by
    obtain ⟨y, t, hy, ht, hut, hxs, hxl⟩ := h s hs
    rw [hxs] at hover
    rw [hxl]
    exact hy.stops t ht (hut ▸ hin) hover

/-- A step on a part of the state, charged as that part is. -/
theorem focus {τ : Type} {get : τ → σ} {put : τ → σ → τ} (hget : ∀ t s, get (put t s) = s)
    (hput : ∀ t s s', put (put t s) s' = put t s') {x : Step σ α} (hx : Capped c x) :
    Capped (c.focus get put) (Step.focus get put x) where
  good t ht := by simpa [Charge.focus, hget] using hx.good (get t) ht
  grows t ht := by simpa [Charge.focus, hget] using hx.grows (get t) ht
  fits t ht hfit := by
    have h := hx.fits (get t) ht (by simpa [Charge.focus, hget] using hfit)
    simp [Charge.focus, hget, hput, h]
  stops t ht hin hover := by
    obtain ⟨u, hu, huu, h⟩ := hx.stops (get t) ht hin (by simpa [Charge.focus, hget] using hover)
    exact ⟨put t u, by simpa [Charge.focus, hget] using hu, by simpa [Charge.focus, hget] using huu,
      by simp [Charge.focus, hget, hput, h]⟩

end Capped

end Step

namespace SpillArea

/-- The bytes the buffers hold, all together. -/
def used (a : SpillArea) : Nat := (a.buffers.map fun b => b.data.length).sum

/-- The buffers of `a` charged to a budget of `limit` bytes, of which what they hold is spent. -/
def charged (limit : UInt64) (a : SpillArea) : SpillArea :=
  { budget := ⟨limit, (limit.toNat - a.used).toUInt64⟩
    buffers := a.buffers.map fun b => { b with bounded := true } }

variable {a : SpillArea} {i : Nat} {d : Bytes} {B : UInt64}

@[simp] theorem length_charged : (a.charged B).buffers.length = a.buffers.length := by
  simp [charged]

@[simp] theorem data_charged (j : Nat) : (a.charged B).data j = a.data j := by
  simp [charged, data, Function.comp_def]

@[simp] theorem limit_charged : (a.charged B).budget.limit = B := rfl

@[simp] theorem used_charged : (a.charged B).used = a.used := by
  simp [charged, used, Function.comp_def]

/-- What is left of the budget is what the buffers do not use. -/
theorem remaining_charged (hu : a.used ≤ B.toNat) :
    (a.charged B).budget.remaining.toNat = B.toNat - a.used := by
  have hB := UInt64.toNat_lt B
  simp only [charged, Nat.toUInt64_eq, UInt64.toNat_ofNat']
  exact Nat.mod_eq_of_lt (by omega)

theorem used_append (hi : i < a.buffers.length) : (a.append i d).used = a.used + d.length := by
  obtain ⟨budget, buffers⟩ := a
  simp only [used, append] at hi ⊢
  induction buffers generalizing i with
  | nil => simp at hi
  | cons b bs ih =>
    cases i with
    | zero => simp; omega
    | succ i =>
      simp only [List.length_cons, Nat.add_lt_add_iff_right] at hi
      simp [ih hi]
      omega

/-- Charged to the budget, a buffer takes a write whole when what the buffers then hold fits in
the budget, and refuses it otherwise, with nothing appended and nothing charged. -/
theorem write_charged (hi : i < a.buffers.length) (hu : a.used ≤ B.toNat) :
    (write i d).apply (a.charged B) =
      if a.used + d.length ≤ B.toNat then (.ok (), (a.append i d).charged B)
      else (.error (.io (.writeLimit B)), a.charged B) := by
  by_cases hd : d = []
  · subst hd
    simp [write, hu]
  · have hb : (a.charged B).buffers[i]? = some { a.buffers[i] with bounded := true } := by
      simp [charged, List.getElem?_eq_getElem hi]
    have hB := UInt64.toNat_lt B
    simp only [write, Step.apply_bind, Step.apply_get, List.isEmpty_iff, hd, if_false, hb,
      if_true, SpillBudget.consume, remaining_charged hu, limit_charged]
    by_cases hfit : a.used + d.length ≤ B.toNat
    · simp only [show d.length ≤ B.toNat - a.used by omega, if_true, hfit]
      simp only [Step.apply_bind, Step.apply_pure, Step.apply_set, Prod.mk.injEq, true_and]
      simp only [charged, used_append hi, SpillArea.mk.injEq, SpillBudget.mk.injEq, true_and]
      constructor
      · -- the budget is charged the length of the write
        have hle : (List.length d).toUInt64 ≤ (B.toNat - a.used).toUInt64 := by
          simp only [UInt64.le_iff_toNat_le, Nat.toUInt64_eq, UInt64.toNat_ofNat']
          rw [Nat.mod_eq_of_lt (by omega), Nat.mod_eq_of_lt (by omega)]
          omega
        rw [← UInt64.toNat_inj, UInt64.toNat_sub_of_le _ _ hle]
        simp only [Nat.toUInt64_eq, UInt64.toNat_ofNat']
        rw [Nat.mod_eq_of_lt (by omega), Nat.mod_eq_of_lt (by omega), Nat.mod_eq_of_lt (by omega)]
        omega
      · rw [append, List.modify_eq_set_get _ hi, List.map_set]
        rfl
    · simp [show ¬ d.length ≤ B.toNat - a.used by omega, hfit]

/-- A write that fails leaves the buffers and the budget as they were, and fails with the write
limit of the budget. -/
theorem write_fails {e : Error} {a' : SpillArea} (h : (write i d).apply a = (.error e, a')) :
    a' = a ∧ e = .io (.writeLimit a.budget.limit) := by
  by_cases hd : d = []
  · subst hd
    simp [write] at h
  · cases hb : a.buffers[i]? with
    | none => simp [write, hd, hb] at h
    | some b =>
      cases hbd : b.bounded with
      | false => simp [write, hd, hb, hbd] at h
      | true =>
        cases hc : a.budget.consume d.length with
        | none =>
          simp only [write, Step.apply_bind, Step.apply_get, List.isEmpty_iff, hd, if_false, hb,
            hbd, if_true, hc, Step.apply_throw, Prod.mk.injEq, Except.error.injEq] at h
          exact ⟨h.2.symm, h.1.symm⟩
        | some b' => simp [write, hd, hb, hbd, hc] at h

/-- The bytes held are those of each buffer, added up. -/
theorem used_eq_sum (a : SpillArea) :
    a.used = ((List.range a.buffers.length).map fun j => (a.data j).length).sum := by
  obtain ⟨budget, bs⟩ := a
  simp only [used, data]
  induction bs with
  | nil => rfl
  | cons b bs ih => simp [List.range_succ_eq_map, ih, Function.comp_def]

/-- Empty buffers charged to a budget are the buffers created with that budget. -/
theorem charged_create (k : Nat) (B : UInt64) : (create k none).charged B = create k (some B) := by
  simp [charged, create, used, SpillBudget.create]

/-- Unbounded buffers, `k` of them, charged to a budget of `limit` bytes; past the budget a write
fails with the write limit. -/
def charge (limit : UInt64) (k : Nat) : Step.Charge SpillArea where
  lift := charged limit
  used := used
  good a := a.Unbounded ∧ a.buffers.length = k
  cap := limit.toNat
  err := .io (.writeLimit limit)

/-- A write to one of the buffers is capped: charged, it does what it does unbounded until the
budget runs out, and is then refused. -/
theorem write_capped {k : Nat} (hi : i < k) : Step.Capped (charge B k) (write i d) := by
  have hw : ∀ a : SpillArea, a.Unbounded → (write i d).apply a = (.ok (), a.append i d) :=
    fun a ha => (outlet_appends i).write a d ha
  refine ⟨fun a ha => ?_, fun a ha => ?_, fun a ha hfit => ?_, fun a ha hin hover => ?_⟩ <;>
    have hia : i < a.buffers.length := ha.2 ▸ hi
  · simp only [charge, hw a ha.1] at ha ⊢
    exact ⟨ha.1.append i d, by simpa using ha.2⟩
  · simp only [charge, hw a ha.1, used_append hia]
    omega
  · simp only [charge, hw a ha.1, used_append hia] at hfit ⊢
    rw [write_charged hia (by omega), if_pos hfit]
  · simp only [charge, hw a ha.1, used_append hia] at ha hin hover ⊢
    exact ⟨a, ha, hin, by rw [write_charged hia hin, if_neg (by omega)]⟩

end SpillArea

namespace Wire.Writer

open Step SpillArea

variable {B : UInt64} {k i : Nat}

/-- A writer over `k` unbounded buffers, charged to a budget of `limit` bytes. -/
def spillCharge (limit : UInt64) (k : Nat) : Charge (Writer × SpillArea) :=
  (charge limit k).focus Prod.snd fun p a => (p.1, a)

theorem checkOpen_capped : Capped (spillCharge B k) (checkOpen : Step (Writer × SpillArea) Unit) :=
  Capped.get_bind (fun _ => Capped.ite' (Capped.throw' _) (Capped.pure' _)) fun _ => rfl

/-- Closing an open writer over spill buffers drains it and nothing more: ending the sink of a
spill buffer does nothing. -/
theorem close_eq_drain {w : Writer} (hc : w.closed = false) (a : SpillArea) :
    (close (outlet i)).apply (w, a) = (drain (outlet i)).apply ({ w with closed := true }, a) := by
  simp only [close, Step.apply_bind, Step.apply_get, hc, Bool.false_eq_true, if_false,
    Step.apply_modify, Step.apply_attempt, toSink, Step.apply_focus]
  rcases (drain (outlet i)).apply ({ w with closed := true }, a) with ⟨_ | _, p⟩ <;> rfl

section Capped

variable (hi : i < k)
include hi

theorem toSink_write_capped (d : Bytes) :
    Capped (spillCharge B k) (toSink ((outlet i).write d) : Step (Writer × SpillArea) Unit) := by
  refine Capped.focus ?_ ?_ (write_capped hi) <;> intros <;> rfl

theorem drain_capped : Capped (spillCharge B k) (drain (outlet i)) := by
  refine Capped.of_reduce fun ⟨w, a⟩ ha => ?_
  by_cases h0 : w.buffered = 0
  · exact ⟨pure (), (w, a), Capped.pure' _, ha, rfl, by simp [drain, h0],
      by simp [drain, h0, spillCharge, Charge.focus]⟩
  · -- the buffer goes to the sink in one write, after the writer lets go of it
    refine ⟨toSink ((outlet i).write w.buffer), ({ w with chunks := [], buffered := 0 }, a),
      toSink_write_capped hi _, ha, rfl,
      by simp [drain, h0], by simp [drain, h0, spillCharge, Charge.focus]⟩

theorem push_capped (r : Record) : Capped (spillCharge B k) (push (outlet i) r) :=
  Capped.bind' checkOpen_capped fun _ =>
    Capped.bind' (Capped.modify' (fun _ h => h) (fun _ => rfl) fun _ => rfl) fun _ =>
      Capped.get_bind (fun _ => Capped.ite' (drain_capped hi) (Capped.pure' _)) fun _ => rfl

theorem writeGroup_capped (g : GroupId) (stats : List Int64) :
    Capped (spillCharge B k) (writeGroup (outlet i) g stats) :=
  Capped.bind' checkOpen_capped fun _ =>
    Capped.get_bind (fun _ => Capped.ite' (Capped.bind' (Capped.throw' _) fun _ => push_capped hi _)
      (push_capped hi _)) fun _ => rfl

theorem close_capped : Capped (spillCharge B k) (close (outlet i)) := by
  refine Capped.of_reduce fun ⟨w, a⟩ ha => ?_
  cases hc : w.closed with
  | true => exact ⟨pure (), (w, a), Capped.pure' _, ha, rfl, close_closed hc a, close_closed hc _⟩
  | false =>
    exact ⟨drain (outlet i), ({ w with closed := true }, a), drain_capped hi, ha, rfl,
      close_eq_drain hc a, close_eq_drain hc _⟩

end Capped

end Wire.Writer

namespace Splitter

open Step SpillArea Wire Replay

variable {τ : Type} {B : UInt64} {k i : Nat}

/-- A split into `k` unbounded buffers, charged to a budget of `limit` bytes. -/
def splitCharge (limit : UInt64) (k : Nat) : Charge (Fanout τ SpillArea) :=
  (charge limit k).focus Fanout.sinks fun f a => { f with sinks := a }

@[simp] theorem splitCharge_cap : (splitCharge (τ := τ) B k).cap = B.toNat := rfl

@[simp] theorem splitCharge_used (f : Fanout τ SpillArea) : (splitCharge B k).used f = f.sinks.used :=
  rfl

theorem onInput_capped {α : Type} (x : Step τ α) :
    Capped (splitCharge B k) (onInput x : Step (Fanout τ SpillArea) α) :=
  Capped.of_commutes (fun _ h => h) (fun _ => rfl) fun _ => rfl

/-- A step of one writer is capped over the split when it is capped over that writer. -/
theorem onWriter_capped {x : Step (Writer × SpillArea) Unit}
    (hx : Capped (Writer.spillCharge B k) x) :
    Capped (splitCharge B k) (onWriter i x : Step (Fanout τ SpillArea) Unit) := by
  constructor
  · intro f hf
    cases hw : f.writers[i]? with
    | none => simpa [onWriter, hw] using hf
    | some w =>
      have h := hx.good (w, f.sinks) hf
      simpa [onWriter, hw, splitCharge, Writer.spillCharge, Charge.focus] using h
  · intro f hf
    cases hw : f.writers[i]? with
    | none => simp [onWriter, hw]
    | some w =>
      have h := hx.grows (w, f.sinks) hf
      simpa [onWriter, hw, splitCharge, Writer.spillCharge, Charge.focus] using h
  · intro f hf hfit
    cases hw : f.writers[i]? with
    | none => simp [onWriter, hw, splitCharge, Charge.focus]
    | some w =>
      have h := hx.fits (w, f.sinks) hf (by
        simpa [onWriter, hw, splitCharge, Writer.spillCharge, Charge.focus] using hfit)
      simp only [Writer.spillCharge, Charge.focus] at h
      simp [onWriter, hw, splitCharge, Charge.focus, h]
  · intro f hf hin hover
    cases hw : f.writers[i]? with
    | none => simp [onWriter, hw, splitCharge, Charge.focus] at hin hover; omega
    | some w =>
      obtain ⟨⟨w', t⟩, ht, htu, h⟩ := hx.stops (w, f.sinks) hf hin (by
        simpa [onWriter, hw, splitCharge, Writer.spillCharge, Charge.focus] using hover)
      simp only [Writer.spillCharge, Charge.focus] at h
      exact ⟨{ f with writers := f.writers.set i w', sinks := t }, ht, htu, by
        simp [onWriter, hw, splitCharge, Charge.focus, h]⟩

theorem broadcast_capped (fld : Field) :
    ∀ is : List Nat, (∀ i ∈ is, i < k) →
      Capped (splitCharge B k) (forIn is PUnit.unit fun i _ => do
        onWriter i (Writer.switchField (outlet i) fld)
        pure (ForInStep.yield PUnit.unit) : Step (Fanout τ SpillArea) PUnit)
  | [], _ => Capped.pure' _
  | i :: is, his => by
    simp only [List.forIn_cons]
    refine Capped.bind' (Capped.bind' (onWriter_capped (Writer.push_capped
      (his i (List.mem_cons_self ..)) _)) fun _ => Capped.pure' _) fun r => ?_
    rcases r with ⟨⟨⟩⟩ | ⟨⟨⟩⟩
    exacts [Capped.pure' _, broadcast_capped fld is fun j hj => his j (List.mem_cons_of_mem _ hj)]

section Routing

variable [Cursor τ]

theorem copyGroups_capped (hi : i < k) (fuel : Nat) :
    Capped (splitCharge B k) (copyGroups outlet i fuel : Step (Fanout τ SpillArea) Unit) := by
  induction fuel with
  | zero => exact Capped.pure' _
  | succ fuel ih =>
    exact Capped.bind' (onInput_capped _) fun _ =>
      Capped.ite' (Capped.get_bind (fun _ =>
        Capped.bind' (onWriter_capped (Writer.writeGroup_capped hi _ _)) fun _ => ih) fun _ => rfl)
        (Capped.pure' _)

theorem copyTerm_capped (hi : i < k) (fuel : Nat) :
    Capped (splitCharge B k) (copyTerm outlet i fuel : Step (Fanout τ SpillArea) Unit) :=
  Capped.get_bind (fun _ => Capped.bind' (onWriter_capped (Writer.push_capped hi _)) fun _ =>
    copyGroups_capped hi fuel) fun _ => rfl

theorem routeTerms_capped (s : Splitter) (hk : 0 < k) (fuel m : Nat) :
    Capped (splitCharge B k) (routeTerms outlet s k fuel m : Step (Fanout τ SpillArea) Unit) := by
  induction m with
  | zero => exact Capped.pure' _
  | succ m ih =>
    exact Capped.bind' (onInput_capped _) fun _ =>
      Capped.ite' (Capped.get_bind (fun _ =>
        Capped.bind' (copyTerm_capped (Split.index_lt s.prime _ hk) fuel) fun _ => ih) fun _ => rfl)
        (Capped.pure' _)

/-- Routing a stream into buffers charged to a budget does what it does unbounded while the
buffers stay within the budget, and otherwise fails with the write limit. -/
theorem routeFields_capped (s : Splitter) (hk : 0 < k) (fuel m : Nat) :
    Capped (splitCharge B k) (routeFields outlet s k fuel m : Step (Fanout τ SpillArea) Unit) := by
  induction m with
  | zero => exact Capped.pure' _
  | succ m ih =>
    exact Capped.bind' (onInput_capped _) fun _ =>
      Capped.ite' (Capped.get_bind (fun _ =>
        Capped.bind' (broadcast_capped _ _ fun _ hi => List.mem_range.mp hi) fun _ =>
          Capped.bind' (routeTerms_capped s hk fuel fuel) fun _ => ih) fun _ => rfl)
        (Capped.pure' _)

end Routing

/-! ### Closing the writers -/

/-- Closing the writers `is` one by one, each failure caught. -/
def closeAll (is : List Nat) : Step (Fanout τ SpillArea) (List (Except Error Unit)) :=
  is.mapM fun i => Step.attempt (onWriter i (Writer.close (outlet i)))

/-- Without a budget, closing a writer always succeeds. -/
theorem close_unbounded {f : Fanout τ SpillArea} (hf : f.sinks.Unbounded) :
    ((onWriter i (Writer.close (outlet i))).apply f).1 = .ok () := by
  cases hw : f.writers[i]? with
  | none => simp [onWriter, hw]
  | some w =>
    cases hc : w.closed with
    | true => simp [onWriter, hw, Writer.close_closed hc]
    | false =>
      by_cases h0 : w.buffered = 0
      · simp [onWriter, hw, Writer.close_eq_drain hc, Writer.drain, h0]
      · simp [onWriter, hw, Writer.close_eq_drain hc, Writer.drain, h0, Writer.toSink,
          (outlet_appends i).write _ _ hf]

theorem closeAll_cons {is : List Nat} {f f₁ f' : Fanout τ SpillArea} {r : Except Error Unit}
    {rs : List (Except Error Unit)} (h₁ : (onWriter i (Writer.close (outlet i))).apply f = (r, f₁))
    (h₂ : (closeAll is).apply f₁ = (.ok rs, f')) :
    (closeAll (i :: is)).apply f = (.ok (r :: rs), f') := by
  simp only [closeAll] at h₂ ⊢
  simp [List.mapM_cons, h₁, h₂]

/-- From charged buffers within the budget, closing writers leaves charged buffers within the
budget, whatever each close answers. -/
theorem closeAll_charged :
    ∀ (is : List Nat), (∀ i ∈ is, i < k) → ∀ t : Fanout τ SpillArea, (splitCharge B k).good t →
      (splitCharge B k).used t ≤ B.toNat →
      ∃ rs t', (splitCharge B k).good t' ∧ (splitCharge B k).used t' ≤ B.toNat ∧
        (closeAll is).apply ((splitCharge B k).lift t) = (.ok rs, (splitCharge B k).lift t')
  | [], _, t, ht, htu => ⟨[], t, ht, htu, rfl⟩
  | i :: is, his, t, ht, htu => by
    have hx := onWriter_capped (τ := τ) (i := i)
      (Writer.close_capped (B := B) (his i (List.mem_cons_self ..)))
    have his' : ∀ j ∈ is, j < k := fun j hj => his j (List.mem_cons_of_mem _ hj)
    -- the close either fits, or is refused and leaves the buffers as they were
    obtain ⟨r, t₁, ht₁, htu₁, hstep⟩ : ∃ r t₁, (splitCharge B k).good t₁ ∧
        (splitCharge B k).used t₁ ≤ B.toNat ∧
        (onWriter i (Writer.close (outlet i))).apply ((splitCharge B k).lift t) =
          (r, (splitCharge B k).lift t₁) := by
      by_cases hfit : (splitCharge B k).used ((onWriter i (Writer.close (outlet i))).apply t).2 ≤
          B.toNat
      · exact ⟨_, _, hx.good t ht, hfit, hx.fits t ht hfit⟩
      · obtain ⟨t₁, ht₁, htu₁, h⟩ := hx.stops t ht htu (by rw [splitCharge_cap]; omega)
        exact ⟨_, t₁, ht₁, htu₁, h⟩
    obtain ⟨rs, t', ht', htu', hrest⟩ := closeAll_charged is his' t₁ ht₁ htu₁
    exact ⟨r :: rs, t', ht', htu', closeAll_cons hstep hrest⟩

/-- Closing writers over unbounded buffers succeeds for each of them. Charged to the budget,
closing does the same while the buffers stay within the budget; past it, the first close that
fails is refused at the write limit, and the buffers stay charged and within the budget. -/
theorem closeAll_capped :
    ∀ (is : List Nat), (∀ i ∈ is, i < k) → ∀ f : Fanout τ SpillArea, (splitCharge B k).good f →
      ∃ f', (closeAll is).apply f = (.ok (is.map fun _ => .ok ()), f') ∧
        (splitCharge B k).good f' ∧ (splitCharge B k).used f ≤ (splitCharge B k).used f' ∧
        ((splitCharge B k).used f' ≤ B.toNat → (closeAll is).apply ((splitCharge B k).lift f) =
          (.ok (is.map fun _ => .ok ()), (splitCharge B k).lift f')) ∧
        ((splitCharge B k).used f ≤ B.toNat → B.toNat < (splitCharge B k).used f' →
          ∃ rs t, (splitCharge B k).good t ∧ (splitCharge B k).used t ≤ B.toNat ∧
            (closeAll is).apply ((splitCharge B k).lift f) = (.ok rs, (splitCharge B k).lift t) ∧
            firstFailure rs = some (.io (.writeLimit B)))
  | [], _, f, hf => ⟨f, rfl, hf, Nat.le_refl _, fun _ => rfl, fun hin hover => absurd hin (by omega)⟩
  | i :: is, his, f, hf => by
    have hx := onWriter_capped (τ := τ) (i := i)
      (Writer.close_capped (B := B) (his i (List.mem_cons_self ..)))
    have his' : ∀ j ∈ is, j < k := fun j hj => his j (List.mem_cons_of_mem _ hj)
    obtain ⟨f₁, h₁⟩ : ∃ f₁, (onWriter i (Writer.close (outlet i))).apply f = (.ok (), f₁) :=
      ⟨_, Prod.ext (close_unbounded hf.1) rfl⟩
    have hg₁ := hx.good f hf
    have hu₁ := hx.grows f hf
    rw [h₁] at hg₁ hu₁
    obtain ⟨f', h₂, hg', hu', hfits, hstops⟩ := closeAll_capped is his' f₁ hg₁
    refine ⟨f', closeAll_cons h₁ h₂, hg', Nat.le_trans hu₁ hu', fun hfit => ?_, fun hin hover => ?_⟩
    · have hx₁ := hx.fits f hf (by rw [h₁]; exact Nat.le_trans hu' hfit)
      rw [h₁] at hx₁
      exact closeAll_cons hx₁ (hfits hfit)
    · by_cases hfit₁ : (splitCharge B k).used f₁ ≤ B.toNat
      · -- this close fits and a later one is refused
        have hx₁ := hx.fits f hf (by rw [h₁]; exact hfit₁)
        rw [h₁] at hx₁
        obtain ⟨rs, t, ht, htu, hrest, hfirst⟩ := hstops hfit₁ hover
        exact ⟨.ok () :: rs, t, ht, htu, closeAll_cons hx₁ hrest, by simpa [firstFailure] using hfirst⟩
      · -- this close is refused; the later ones close on the charged buffers as they are
        obtain ⟨t₁, ht₁, htu₁, hx₁⟩ := hx.stops f hf hin
          (by rw [h₁, splitCharge_cap]; exact Nat.lt_of_not_le hfit₁)
        obtain ⟨rs, t, ht, htu, hrest⟩ := closeAll_charged is his' t₁ ht₁ htu₁
        exact ⟨.error (.io (.writeLimit B)) :: rs, t, ht, htu, closeAll_cons hx₁ hrest, rfl⟩

/-- Once routing succeeded, a split closes every writer and its input, and reports the first
failure of the closes, a spill write limit as exceeded capacity. -/
theorem run_routed [Cursor τ] (s : Splitter) {f f₁ f₂ : Fanout τ SpillArea}
    {rs : List (Except Error Unit)} (hk : f.writers ≠ [])
    (hroute : (routeFields outlet s f.writers.length (Cursor.budget f.input + 1)
      (Cursor.budget f.input + 1)).apply f = (.ok (), f₁))
    (hclose : (closeAll (List.range f.writers.length)).apply f₁ = (.ok rs, f₂)) :
    (run outlet s).apply f = ((firstFailure rs).elim (.ok ()) fun e => .error e.classify,
      { f₂ with input := (Cursor.close.apply f₂.input).2 }) := by
  simp only [closeAll] at hclose
  cases hfirst : firstFailure rs <;>
    simp [run, hk, Step.apply_bind, Step.apply_get, Step.apply_attempt, hroute, hclose, hfirst]

/-! ### Splitting under a budget -/

/-- The bytes of the `k` parts a split of `v` sends on, all together. -/
def splitSize (s : Splitter) (v : Ftgs) (k : Nat) : Nat :=
  ((List.range k).map fun i => (encode (v.keepTerms fun t => s.index t k = i)).length).sum

section Budget

variable [Cursor τ] {S : τ → View → Prop} (hS : ViewSim S)
include hS

/-- Without a budget, routing a cursor that moves as the views of `v` into `k ≥ 1` buffers and
then closing the writers leave each part's encoding in its buffer, `splitSize s v k` bytes in
all. -/
theorem split_unbounded (s : Splitter) {input : τ} {u : View} {v : Ftgs} (hk : 0 < k)
    (hu : S input u) (hv : u.fields = v) (hb : v.Bounded (Cursor.budget input))
    (hn : ∀ F ∈ v, ∀ t ∈ F.terms, ∀ g ∈ t.groups, g.stats.length = Cursor.numStats input) :
    ∃ f₁ f₂ : Fanout τ SpillArea,
      (routeFields outlet s k (Cursor.budget input + 1) (Cursor.budget input + 1)).apply
        (Fanout.create input k (SpillArea.create k none)) = (.ok (), f₁) ∧
      (closeAll (List.range k)).apply f₁ = (.ok ((List.range k).map fun _ => .ok ()), f₂) ∧
      f₂.sinks.used = splitSize s v k ∧
      ∀ i < k, f₂.sinks.data i = encode (v.keepTerms fun t => s.index t k = i) := by
  obtain ⟨f₁, f₂, hroute, hclose, hok₂, hview, -, -, -⟩ := route_then_close
    (SpillArea.outputs_unbounded k) hS s hk hu hv hb hn
    (sent_create input k (SpillArea.create_unbounded k))
  have hdata₂ : ∀ i < k, f₂.sinks.data i = encode (v.keepTerms fun t => s.index t k = i) :=
    fun i hi => by simpa using hview i hi
  refine ⟨f₁, f₂, hroute, hclose, ?_, hdata₂⟩
  rw [used_eq_sum, hok₂.2, splitSize]
  exact congrArg List.sum (List.map_congr_left fun i hi => by
    rw [hdata₂ i (List.mem_range.mp hi)])

/-- Spilled under a budget of `B` bytes, a split of a cursor that moves as the views of `v`
succeeds when its parts fit in the budget and fails with the capacity exceeded otherwise. Either
way it leaves unbounded buffers charged to the budget and within it: those of the unbounded split
when the parts fit. -/
theorem spill_outcome (s : Splitter) {input : τ} {u : View} {v : Ftgs} (hk : 0 < k) (B : UInt64)
    (hu : S input u) (hv : u.fields = v) (hb : v.Bounded (Cursor.budget input))
    (hn : ∀ F ∈ v, ∀ t ∈ F.terms, ∀ g ∈ t.groups, g.stats.length = Cursor.numStats input) :
    (s.spill input k (some B)).1 =
        (if splitSize s v k ≤ B.toNat then .ok () else .error (.capacityExceeded B)) ∧
      ∃ a : SpillArea, a.Unbounded ∧ a.buffers.length = k ∧ a.used ≤ B.toNat ∧
        (s.spill input k (some B)).2.sinks = a.charged B ∧ (splitSize s v k ≤ B.toNat →
          ∀ i < k, a.data i = encode (v.keepTerms fun t => s.index t k = i)) := by
  obtain ⟨f₁, f₂, hroute, hclose, hused₂, hdata₂⟩ := split_unbounded hS s hk hu hv hb hn
  -- the split under the budget runs on the unbounded split's starting buffers, charged
  let f₀ : Fanout τ SpillArea := Fanout.create input k (SpillArea.create k none)
  have hg₀ : (splitCharge B k).good f₀ := SpillArea.create_unbounded k
  replace hroute : (routeFields outlet s k (Cursor.budget input + 1)
      (Cursor.budget input + 1)).apply f₀ = (.ok (), f₁) := hroute
  have hstart : s.spill input k (some B) = (run outlet s).apply ((splitCharge B k).lift f₀) := by
    simp [spill, splitCharge, Charge.focus, charge, f₀, Fanout.create, charged_create]
  have hlen : ((splitCharge B k).lift f₀).writers.length = k := by
    simp [f₀, splitCharge, Charge.focus, Fanout.create]
  have hne : ((splitCharge B k).lift f₀).writers ≠ [] := by
    simpa [f₀, splitCharge, Charge.focus, Fanout.create] using Nat.pos_iff_ne_zero.mp hk
  have hR := routeFields_capped (τ := τ) (B := B) s hk (Cursor.budget input + 1)
    (Cursor.budget input + 1)
  have hg₁ := hR.good f₀ hg₀
  rw [hroute] at hg₁
  obtain ⟨f₂', hclose', hg₂, hu₁₂, hfits, hstops⟩ := closeAll_capped (B := B) (List.range k)
    (fun i hi => List.mem_range.mp hi) f₁ hg₁
  rw [hclose] at hclose'
  obtain ⟨-, rfl⟩ := Prod.mk.inj hclose'
  by_cases hT : splitSize s v k ≤ B.toNat
  · -- everything fits: the split runs as unbounded, on charged buffers
    have hfit₂ : (splitCharge B k).used f₂ ≤ B.toNat := by rw [splitCharge_used, hused₂]; exact hT
    have hrB := hR.fits f₀ hg₀ (by rw [hroute]; exact Nat.le_trans hu₁₂ hfit₂)
    rw [hroute] at hrB
    have hrun := run_routed s hne (by rw [hlen]; exact hrB) (by rw [hlen]; exact hfits hfit₂)
    rw [hstart, hrun]
    exact ⟨by simp only [firstFailure_ok]; simp [hT], f₂.sinks, hg₂.1, hg₂.2, hfit₂, rfl,
      fun _ => hdata₂⟩
  · by_cases hfit₁ : (splitCharge B k).used f₁ ≤ B.toNat
    · -- routing fits and a close is refused
      have hrB := hR.fits f₀ hg₀ (by rw [hroute]; exact hfit₁)
      rw [hroute] at hrB
      obtain ⟨rs, t, ht, htu, hcB, hfirst⟩ := hstops hfit₁ (by rw [splitCharge_used]; omega)
      have hrun := run_routed s hne (by rw [hlen]; exact hrB) (by rw [hlen]; exact hcB)
      rw [hstart, hrun]
      exact ⟨by simp [hfirst, hT, Error.classify], t.sinks, ht.1, ht.2, htu, rfl,
        fun h => absurd h hT⟩
    · -- a write of the routing is refused, and every writer is aborted
      obtain ⟨t, ht, htu, hrB⟩ := hR.stops f₀ hg₀ (by simp [f₀, splitCharge, Charge.focus,
        charge, Fanout.create, used, create]) (by rw [hroute]; exact Nat.lt_of_not_le hfit₁)
      have hopen : ∀ w ∈ ((splitCharge B k).lift f₀).writers, w.closed = false := by
        intro w hw
        simp only [f₀, splitCharge, Charge.focus, Fanout.create, List.mem_replicate] at hw
        rw [hw.2]
        rfl
      obtain ⟨f₃, hrun, -, -, -, hsinks⟩ := run_routing_fails outlet s hne hopen
        (by rw [hlen]; exact hrB)
      have hsinks' : f₃.sinks = t.sinks.charged B := by
        rw [hsinks]
        exact List.foldl_fixed _
      rw [hstart, hrun]
      exact ⟨by simp [hT, splitCharge, Charge.focus, charge, Error.classify],
        t.sinks, ht.1, ht.2, htu, hsinks', fun h => absurd h hT⟩

/-- A shared spill budget of `B` bytes admits a split into `k ≥ 1` buffers exactly when the parts'
encodings together fit in `B`, streamed or in memory; a clean split leaves each part's encoding in
its buffer and `B` less their total in the budget. One that does not fit fails as capacity exceeded,
and either way budget and buffers add up to `B`. -/
theorem budget_admits_split_iff_fits (s : Splitter) {input : τ} {u : View} {v : Ftgs} (hk : 0 < k)
    (B : UInt64) (hu : S input u) (hv : u.fields = v) (hb : v.Bounded (Cursor.budget input))
    (hn : ∀ F ∈ v, ∀ t ∈ F.terms, ∀ g ∈ t.groups, g.stats.length = Cursor.numStats input) :
    ((s.spill input k (some B)).1 = .ok () ↔ splitSize s v k ≤ B.toNat) ∧
      (splitSize s v k ≤ B.toNat →
        (∀ i < k, (s.spill input k (some B)).2.sinks.data i =
          encode (v.keepTerms fun t => s.index t k = i)) ∧
        (s.spill input k (some B)).2.sinks.budget.remaining.toNat = B.toNat - splitSize s v k) ∧
      (B.toNat < splitSize s v k →
        (s.spill input k (some B)).1 = .error (.capacityExceeded B)) ∧
      (s.spill input k (some B)).2.sinks.budget.remaining.toNat +
        (s.spill input k (some B)).2.sinks.used = B.toNat ∧
      (∀ (a a' : SpillArea) (j : Nat) (d : Bytes) (e : Error),
        (SpillArea.write j d).apply a = (.error e, a') →
          a' = a ∧ e = .io (.writeLimit a.budget.limit)) ∧
      s.inMemory input k (some B) = if splitSize s v k ≤ B.toNat then
          .ok ((List.range k).map fun i => Reader.ofBytes
            (encode (v.keepTerms fun t => s.index t k = i)) (Cursor.numStats input)
            (Cursor.numGroups input))
        else .error (.capacityExceeded B) := by
  obtain ⟨hres, a, -, hlen, hau, hsinks, hdata⟩ := spill_outcome hS s hk B hu hv hb hn
  have hleft : (s.spill input k (some B)).2.sinks.budget.remaining.toNat = B.toNat - a.used := by
    rw [hsinks, remaining_charged hau]
  refine ⟨?_, fun hT => ⟨fun i hi => ?_, ?_⟩, fun hT => ?_, ?_,
    fun _ _ _ _ _ h => write_fails h, ?_⟩
  · by_cases hT : splitSize s v k ≤ B.toNat <;> simp [hres, hT]
  · rw [hsinks, data_charged, hdata hT i hi]
  · -- the buffers hold the parts, so they use their total
    have hused : a.used = splitSize s v k := by
      rw [used_eq_sum, hlen, splitSize]
      exact congrArg List.sum (List.map_congr_left fun i hi => by
        rw [hdata hT i (List.mem_range.mp hi)])
    rw [hleft, hused]
  · simp [hres, Nat.not_le.mpr hT]
  · rw [hleft, hsinks, used_charged]
    omega
  · by_cases hT : splitSize s v k ≤ B.toNat
    · have hmem : (s.spill input k (some B)).1 = .ok () := by simp [hres, hT]
      simp only [inMemory, hmem, hT, if_true, Step.map_ok]
      congr 1
      exact List.map_congr_left fun i hi => by
        rw [hsinks, data_charged, hdata hT i (List.mem_range.mp hi)]
    · have hmem : (s.spill input k (some B)).1 = .error (.capacityExceeded B) := by simp [hres, hT]
      simp [inMemory, hmem, hT]

end Budget

/-- A stream of one field, split into one buffer under an empty budget, is refused at the
capacity of the budget, and so is the split in memory. -/
theorem spill_refused_by_empty_budget :
    let v : Ftgs := [⟨⟨"f", .int⟩, [⟨.int 3, 1, [⟨1, [7]⟩]⟩]⟩]
    (standard.spill (Replay.ofBlocks v 1) 1 (some 0)).1 = .error (.capacityExceeded 0) ∧
      standard.inMemory (Replay.ofBlocks v 1) 1 (some 0) = .error (.capacityExceeded 0) := by
  intro v
  have h := budget_admits_split_iff_fits viewSim_self standard Nat.one_pos 0
    (show (Replay.ofBlocks v 1).view = (Replay.ofBlocks v 1).view from rfl)
    (show (Replay.ofBlocks v 1).view.fields = v by simp [Replay.ofBlocks, Replay.view, v])
    (Ftgs.bounded_size v) (by simp [v]; rfl)
  -- the field record alone takes a byte
  have hpos : 0 < splitSize standard v 1 := by
    have hfield := List.length_pos_iff.mpr (Record.encode_ne_nil (.field ⟨"f", .int⟩))
    simp [splitSize, v, encode_cons]
    omega
  exact ⟨h.2.2.1 hpos, by simpa [Nat.not_le.mpr hpos] using h.2.2.2.2.2⟩

end Splitter

end GroupStats
