import Mathlib
import GroupStats.Step

/-!
# Running steps

How the building blocks of a `Step` run: binding passes the state on and stops at the first
failure, keeping the state the failure left; reading, writing and failing act on the state as
their names say. Every later proof about a cursor, a writer or a merge runs its steps through
these equations.
-/

namespace GroupStats

namespace Step

variable {σ α β : Type}

@[simp] theorem apply_pure (a : α) (s : σ) : (pure a : Step σ α).apply s = (.ok a, s) := rfl

@[simp] theorem apply_bind (x : Step σ α) (f : α → Step σ β) (s : σ) :
    (x >>= f).apply s =
      match x.apply s with
      | (.ok a, s') => (f a).apply s'
      | (.error e, s') => (.error e, s') := by
  simp only [apply, ExceptT.run_bind, StateT.run_bind]
  rcases (ExceptT.run x).run s with ⟨r, s'⟩
  cases r <;> rfl

@[simp] theorem apply_get (s : σ) : (get : Step σ σ).apply s = (.ok s, s) := rfl

@[simp] theorem apply_set (s' s : σ) : (set s' : Step σ PUnit).apply s = (.ok ⟨⟩, s') := rfl

@[simp] theorem apply_modify (f : σ → σ) (s : σ) :
    (modify f : Step σ PUnit).apply s = (.ok ⟨⟩, f s) := rfl

@[simp] theorem apply_throw (e : Error) (s : σ) : (throw e : Step σ α).apply s = (.error e, s) :=
  rfl

@[simp] theorem apply_fail (e : Error) (s : σ) : (fail e : Step σ α).apply s = (.error e, s) :=
  rfl

@[simp] theorem map_ok (f : α → β) (a : α) : Except.map f (.ok a : Except Error α) = .ok (f a) :=
  rfl

@[simp] theorem map_error (f : α → β) (e : Error) :
    Except.map f (.error e : Except Error α) = .error e := rfl

@[simp] theorem apply_map (f : α → β) (x : Step σ α) (s : σ) :
    (f <$> x).apply s = ((x.apply s).1.map f, (x.apply s).2) := by
  rw [← bind_pure_comp, apply_bind]
  rcases x.apply s with ⟨r, s'⟩
  cases r <;> rfl

@[simp] theorem apply_attempt (x : Step σ α) (s : σ) :
    (attempt x).apply s = (.ok (x.apply s).1, (x.apply s).2) := rfl

@[simp] theorem apply_focus {τ : Type} (get : τ → σ) (put : τ → σ → τ) (x : Step σ α) (t : τ) :
    (focus get put x).apply t = ((x.apply (get t)).1, put t (x.apply (get t)).2) := rfl

/-- A step on the element at an index of a list runs on that element and puts it back. -/
theorem apply_onIndex {x : Step σ α} {ss : List σ} {i : Nat} {s : σ} (h : ss[i]? = some s) :
    (onIndex i x).apply ss = ((x.apply s).1.map some, ss.set i (x.apply s).2) := by
  simp [onIndex, h]

/-- A step whose failures are caught runs on every element of a list. -/
theorem apply_onEach_attempt (x : Step σ α) (ss : List σ) :
    (onEach (attempt x)).apply ss = (.ok (ss.map fun s => (x.apply s).1), ss.map fun s => (x.apply s).2) := by
  show onEach.go (attempt x) ss = _
  induction ss with
  | nil => rfl
  | cons s ss ih => simp [onEach.go, ih]

/-! ### Steps that keep part of the state -/

/-- The step leaves `view` of the state as it was, whatever it answers. -/
def Preserves {γ : Type} (view : σ → γ) (x : Step σ α) : Prop := ∀ s, view (x.apply s).2 = view s

namespace Preserves

variable {γ : Type} {view : σ → γ}

theorem pure' (a : α) : Preserves view (pure a : Step σ α) := fun _ => rfl

theorem get' : Preserves view (get : Step σ σ) := fun _ => rfl

theorem bind' {x : Step σ α} {f : α → Step σ β} (hx : Preserves view x)
    (hf : ∀ a, Preserves view (f a)) : Preserves view (x >>= f) := by
  intro s
  rw [apply_bind]
  rcases h : x.apply s with ⟨_ | a, s'⟩
  · simpa [h] using hx s
  · simpa [h] using (hf a s').trans (by simpa [h] using hx s)

theorem ite' {c : Prop} [Decidable c] {x y : Step σ α} (hx : Preserves view x)
    (hy : Preserves view y) : Preserves view (if c then x else y) := by
  split
  · exact hx
  · exact hy

end Preserves

/-! ### Steps that agree on related states -/

/-- Run from states related by `R`, the two steps give the same outcome and leave related
states. -/
def Agree {τ : Type} (R : σ → τ → Prop) (x : Step σ α) (y : Step τ α) : Prop :=
  ∀ s t, R s t → (x.apply s).1 = (y.apply t).1 ∧ R (x.apply s).2 (y.apply t).2

namespace Agree

variable {τ : Type} {R : σ → τ → Prop}

/-- The outcome two agreeing steps share, with the related states they leave. -/
theorem apply_eq {x : Step σ α} {y : Step τ α} (h : Agree R x y) {s : σ} {t : τ} (hst : R s t) :
    ∃ o s' t', x.apply s = (o, s') ∧ y.apply t = (o, t') ∧ R s' t' :=
  ⟨(y.apply t).1, (x.apply s).2, (y.apply t).2, by rw [← (h s t hst).1], rfl, (h s t hst).2⟩

theorem pure' (a : α) : Agree R (pure a : Step σ α) (pure a) := fun _ _ h => ⟨rfl, h⟩

theorem bind' {x : Step σ α} {y : Step τ α} {f : α → Step σ β} {g : α → Step τ β}
    (hx : Agree R x y) (hf : ∀ a, Agree R (f a) (g a)) : Agree R (x >>= f) (y >>= g) := by
  intro s t hst
  obtain ⟨o, s', t', hs, ht, h'⟩ := hx.apply_eq hst
  rw [apply_bind, apply_bind, hs, ht]
  cases o with
  | error e => exact ⟨rfl, h'⟩
  | ok a => exact hf a s' t' h'

theorem ite' {c : Prop} [Decidable c] {x x' : Step σ α} {y y' : Step τ α} (hx : Agree R x y)
    (hy : Agree R x' y') : Agree R (if c then x else x') (if c then y else y') := by
  split
  · exact hx
  · exact hy

end Agree

end Step

end GroupStats
