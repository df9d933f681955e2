import GroupStats.Session.Caller
import GroupStats.Proofs.Step
import GroupStats.Proofs.Group.Moves

/-!
# Byte accounting of a multi-session

Every byte a multi-session and its shard sessions keep is claimed through the one context of
their pool, and given back when it is no longer kept. So, whatever a caller does, as long as
the multi-session is open its context holds exactly the assignments and pushed stats of the
open shard sessions, the multi-session's own claim, and the claims of the merged streams the
caller still holds; the reservation holds that on top of what it held before the sessions
opened. Closing the multi-session gives everything back, and reports as a leak exactly the
claims of the streams still held.

The books are kept in `Nat`: a pool whose reservation stays under its ceiling never wraps a
sum of the byte counts it holds.
-/

namespace GroupStats

/-! ### Sums of byte counts -/

/-- A sum of byte counts taken in 64 bits is the sum of their values modulo the word. -/
theorem toNat_foldl_add {β : Type} (f : β → UInt64) (l : List β) (a : UInt64) :
    (l.foldl (fun n x => n + f x) a).toNat =
      (a.toNat + (l.map fun x => (f x).toNat).sum) % 2 ^ 64 := by
  induction l generalizing a with
  | nil => simp [Nat.mod_eq_of_lt a.toNat_lt]
  | cons x l ih =>
    rw [List.foldl_cons, ih, UInt64.toNat_add, List.map_cons, List.sum_cons, Nat.mod_add_mod,
      Nat.add_assoc]

/-- A sum of byte counts below the word's size is taken in 64 bits without wrapping. -/
theorem toNat_foldl_add_zero {β : Type} (f : β → UInt64) (l : List β)
    (h : (l.map fun x => (f x).toNat).sum < 2 ^ 64) :
    (l.foldl (fun n x => n + f x) 0).toNat = (l.map fun x => (f x).toNat).sum := by
  rw [toNat_foldl_add, UInt64.toNat_zero, Nat.zero_add, Nat.mod_eq_of_lt h]

namespace Memory

theorem Reservation.claim_eq_ok {r r' : Reservation} {bytes : UInt64} :
    r.claim bytes = .ok r' ↔ r.used.toNat + bytes.toNat ≤ r.ceiling.toNat ∧
      r' = { r with used := r.used + bytes } := by
  unfold Reservation.claim
  split
  · simp [*, eq_comm]
  · simp [*]

namespace Pool

variable {p p' : Pool} {base : Nat} {bytes : UInt64}

/-- The reservation of the pool holds `base` bytes of other owners besides those of the pool's
context, and stays under its ceiling. -/
structure Tracks (base : Nat) (p : Pool) : Prop where
  used_eq : p.used.toNat = base + p.held.toNat
  within : p.used.toNat ≤ p.reservation.ceiling.toNat

/-- What the context holds fits in a word with room for what the reservation holds besides. -/
theorem Tracks.held_le (h : p.Tracks base) : base + p.held.toNat < 2 ^ 64 :=
  h.used_eq ▸ Nat.lt_of_le_of_lt h.within p.reservation.ceiling.toNat_lt

/-- A claim that goes through adds its bytes to the context and to the reservation. -/
theorem Tracks.claim (h : p.Tracks base) (hc : p.claim bytes = .ok p') :
    p'.Tracks base ∧ p'.held.toNat = p.held.toNat + bytes.toNat := by
  unfold Pool.claim at hc
  cases hr : p.reservation.claim bytes with
  | error e => simp [hr, bind, Except.bind] at hc
  | ok r =>
    simp only [hr, bind, Except.bind, pure, Except.pure, Except.ok.injEq] at hc
    subst hc
    obtain ⟨hfit, rfl⟩ := Reservation.claim_eq_ok.mp hr
    have hu := h.used_eq
    have hceil := p.reservation.ceiling.toNat_lt
    simp only [used, held] at hu
    -- neither sum wraps: both stay under the ceiling
    have hused : (p.reservation.used + bytes).toNat = p.reservation.used.toNat + bytes.toNat := by
      rw [UInt64.toNat_add, Nat.mod_eq_of_lt (by omega)]
    have hheld : (p.context.used + bytes).toNat = p.context.used.toNat + bytes.toNat := by
      rw [UInt64.toNat_add, Nat.mod_eq_of_lt (by omega)]
    refine ⟨⟨?_, ?_⟩, ?_⟩ <;> simp only [used, held, hused, hheld] <;> omega

/-- A release gives back at most what the context holds, from the context and from the
reservation alike. -/
theorem Tracks.release (h : p.Tracks base) (bytes : UInt64) :
    (p.release bytes).Tracks base ∧
      (p.release bytes).held.toNat = p.held.toNat - bytes.toNat := by
  have hu := h.used_eq
  have hw := h.within
  simp only [used, held] at hu hw
  -- what is given back is at most what the context holds, hence what the reservation holds
  have hgiven : (min p.context.used bytes).toNat = min p.context.used.toNat bytes.toNat :=
    UInt64.toNat_min _ _
  have hle : min p.context.used bytes ≤ p.context.used :=
    UInt64.le_iff_toNat_le.mpr (by rw [hgiven]; omega)
  have hle' : min p.context.used bytes ≤ p.reservation.used :=
    UInt64.le_iff_toNat_le.mpr (by rw [hgiven]; omega)
  have hmin : min p.reservation.used (min p.context.used bytes) = min p.context.used bytes :=
    UInt64.toNat_inj.mp (by rw [UInt64.toNat_min, hgiven]; omega)
  refine ⟨⟨?_, ?_⟩, ?_⟩ <;>
    simp only [Pool.release, Reservation.release, used, held, hmin, UInt64.toNat_sub_of_le _ _ hle,
      UInt64.toNat_sub_of_le _ _ hle', hgiven] <;> omega

/-- Closing the pool gives back all its context holds, and reports that as a leak unless it is
nothing. -/
theorem Tracks.close (h : p.Tracks base) :
    p.close.1.Tracks base ∧ p.close.1.held = 0 ∧
      p.close.2 = if p.held = 0 then .ok () else .error (.memoryLeak p.held) := by
  have hu := h.used_eq
  have hw := h.within
  simp only [used, held] at hu hw
  simp only [Pool.close, held]
  by_cases h0 : p.context.used = 0
  · simp only [h0, ↓reduceIte, and_true]
    exact h
  · have hle : p.context.used ≤ p.reservation.used := UInt64.le_iff_toNat_le.mpr (by omega)
    have hmin : min p.reservation.used p.context.used = p.context.used :=
      UInt64.toNat_inj.mp (by rw [UInt64.toNat_min]; omega)
    simp only [h0, ↓reduceIte, and_true]
    constructor <;>
      simp only [Reservation.release, used, held, hmin, UInt64.toNat_sub_of_le _ _ hle] <;>
      simp <;> omega

end Pool

end Memory

/-! ### Shard sessions -/

namespace ShardSession

variable {α : Type} {s s' : ShardSession} {p p' : Memory.Pool} {base : Nat}

/-- The bytes an open session keeps: its assignment, four bytes a document, and the column of
every stat on its stack. -/
def holding (s : ShardSession) : Nat :=
  (lookupBytes s.shard.numDocs).toNat + (s.stats.columns.map fun c => c.memoryUsed.toNat).sum

/-- The bytes a session has claimed and not given back. -/
def owed (s : ShardSession) : Nat :=
  if s.closed then 0 else s.lookupClaim.toNat + (s.statClaims.map UInt64.toNat).sum

/-- The session records the claim of its assignment and the claim of each stat on its stack. -/
structure Sound (s : ShardSession) : Prop where
  lookupClaim_eq : s.lookupClaim = lookupBytes s.shard.numDocs
  statClaims_eq : s.statClaims = s.stats.columns.map StatColumn.memoryUsed

/-- An open session owes what it keeps. -/
theorem Sound.owed_eq (h : s.Sound) : s.owed = if s.closed then 0 else s.holding := by
  simp [owed, holding, h.lookupClaim_eq, h.statClaims_eq, Function.comp_def]

/-- The bytes an answer keeps claimed; a failure keeps none. -/
def kept (keep : α → Nat) : Except Error α → Nat
  | .ok a => keep a
  | .error _ => 0

theorem kept_zero {r : Except Error α} : kept (fun _ => 0) r = 0 := by
  cases r <;> rfl

/-- Run on a session whose claims its pool holds, the step keeps the books: what the pool holds
moves with what the session owes, plus what its answer keeps claimed. -/
def Conserves (x : Op α) (keep : α → Nat) : Prop :=
  ∀ ⦃s s' : ShardSession⦄ ⦃p p' : Memory.Pool⦄ ⦃base : Nat⦄ ⦃r : Except Error α⦄,
    x.apply (s, p) = (r, s', p') → s.Sound → p.Tracks base → s.owed ≤ p.held.toNat →
      s'.Sound ∧ p'.Tracks base ∧ p'.held.toNat + s.owed = p.held.toNat + s'.owed + kept keep r

/-- The body of a request keeps the books when it succeeds on an open session. -/
def Settles (f : ShardSession → Memory.Pool → Except Error (α × ShardSession × Memory.Pool))
    (keep : α → Nat) : Prop :=
  ∀ ⦃s s' : ShardSession⦄ ⦃p p' : Memory.Pool⦄ ⦃base : Nat⦄ ⦃a : α⦄,
    f s p = .ok (a, s', p') → s.Sound → p.Tracks base → s.owed ≤ p.held.toNat →
      s.closed = false →
        s'.Sound ∧ p'.Tracks base ∧ p'.held.toNat + s.owed = p.held.toNat + s'.owed + keep a

section Body

variable {f : ShardSession → Memory.Pool → Except Error (α × ShardSession × Memory.Pool)}

theorem whenOpen_apply (s : ShardSession) (p : Memory.Pool) :
    (whenOpen f).apply (s, p) =
      if s.closed then (.error (.closed .shardSession), (s, p))
      else match f s p with
        | .ok (a, s', p') => (.ok a, (s', p'))
        | .error e => (.error e, (s, p)) := by
  unfold whenOpen
  by_cases hc : s.closed <;> simp only [Step.apply_bind, Step.apply_get, hc] <;> simp
  split <;> simp_all

/-- A request run on an open session keeps the books when its body does; on a closed session,
or when the body fails, nothing changes. -/
theorem Settles.whenOpen {keep : α → Nat} (h : Settles f keep) :
    Conserves (whenOpen f) keep := by
  intro s s' p p' base r hx hs hp hle
  rw [whenOpen_apply] at hx
  by_cases hc : s.closed
  · rw [if_pos hc] at hx
    simp only [Prod.mk.injEq] at hx
    obtain ⟨rfl, rfl, rfl⟩ := hx
    exact ⟨hs, hp, rfl⟩
  · rw [if_neg hc] at hx
    split at hx
    · rename_i a s₁ p₁ hf
      simp only [Prod.mk.injEq] at hx
      obtain ⟨rfl, rfl, rfl⟩ := hx
      exact h hf hs hp hle (by simpa using hc)
    · simp only [Prod.mk.injEq] at hx
      obtain ⟨rfl, rfl, rfl⟩ := hx
      exact ⟨hs, hp, rfl⟩

/-- A request whose body answers from the session and pool as they are leaves them, whatever it
answers. -/
theorem whenOpen_keeps (hf : ∀ s p a s' p', f s p = .ok (a, s', p') → s' = s ∧ p' = p)
    (st : ShardSession × Memory.Pool) : ((whenOpen f).apply st).2 = st := by
  obtain ⟨s, p⟩ := st
  rw [whenOpen_apply]
  split
  · rfl
  · split
    · rename_i a s' p' hok
      obtain ⟨rfl, rfl⟩ := hf s p a s' p' hok
      rfl
    · rfl

end Body

/-- A step that leaves the session and pool as they are, whatever it answers, keeps the books. -/
theorem Conserves.of_keeps {x : Op α} (h : ∀ st, (x.apply st).2 = st) : Conserves x fun _ => 0 := by
  intro s s' p p' base r hx hs hp _
  have hst := h (s, p)
  rw [hx] at hst
  obtain ⟨rfl, rfl⟩ := Prod.mk.inj hst
  exact ⟨hs, hp, by rw [kept_zero, Nat.add_zero]⟩

/-- Pushing a column and recording its bytes as its claim keeps the record. -/
theorem Sound.push (h : s.Sound) (metric : String) (c : StatColumn) :
    ({ s with stats := (s.stats.push metric c).1, statClaims := s.statClaims ++ [c.memoryUsed] }).Sound :=
  ⟨h.lookupClaim_eq, by simp [StatStack.push, StatStack.columns, h.statClaims_eq]⟩

/-- Dropping the last stat together with the last claim keeps the record. -/
theorem Sound.dropLast (h : s.Sound) :
    ({ s with stats := ⟨s.stats.entries.dropLast⟩, statClaims := s.statClaims.dropLast }).Sound :=
  ⟨h.lookupClaim_eq, by simp [h.statClaims_eq, StatStack.columns, List.map_dropLast]⟩

theorem pure_eq_ok {β : Type} {x y : β} : (pure x : Except Error β) = .ok y ↔ x = y := by
  simp [pure, Except.pure]

theorem regroup_conserves (r : Regroup) : Conserves (regroup r) fun _ => 0 := by
  apply Settles.whenOpen
  intro s s' p p' base a hf hs hp _ _
  obtain ⟨l, -, hf⟩ := bind_eq_ok.mp hf
  simp only [pure_eq_ok, Prod.mk.injEq] at hf
  obtain ⟨-, rfl, rfl⟩ := hf
  exact ⟨⟨hs.lookupClaim_eq, hs.statClaims_eq⟩, hp, rfl⟩

/-- Pushing a stat claims its column and records the claim. -/
theorem pushStat_conserves (metric : String) : Conserves (pushStat metric) fun _ => 0 := by
  apply Settles.whenOpen
  intro s s' p p' base a hf hs hp _ hc
  obtain ⟨c, -, hf⟩ := bind_eq_ok.mp hf
  obtain ⟨p₁, hclaim, hf⟩ := bind_eq_ok.mp hf
  simp only [pure_eq_ok, Prod.mk.injEq] at hf
  obtain ⟨-, rfl, rfl⟩ := hf
  obtain ⟨htracks, hheld⟩ := hp.claim hclaim
  refine ⟨hs.push metric c, htracks, ?_⟩
  · simp only [owed, hc, Bool.false_eq_true, if_false, List.map_append, List.sum_append,
      List.map_cons, List.map_nil, List.sum_cons, List.sum_nil, hheld]
    omega

/-- Popping a stat gives back the claim of its column. -/
theorem popStat_conserves : Conserves popStat fun _ => 0 := by
  apply Settles.whenOpen
  intro s s' p p' base a hf hs hp hle hc
  obtain ⟨⟨m, c, stats⟩, hpop, hf⟩ := bind_eq_ok.mp hf
  simp only [pure_eq_ok, Prod.mk.injEq] at hf
  obtain ⟨-, rfl, rfl⟩ := hf
  -- the stack was not empty, and the last claim is the popped column's
  have hlast : s.stats.entries.getLast? = some (m, c) ∧
      stats = ⟨s.stats.entries.dropLast⟩ := by
    unfold StatStack.pop at hpop
    split at hpop
    · cases hpop
    · rename_i e he
      simp only [Except.ok.injEq, Prod.mk.injEq] at hpop
      obtain ⟨rfl, rfl, rfl⟩ := hpop
      exact ⟨he, rfl⟩
  obtain ⟨hlast, rfl⟩ := hlast
  have hclaim : s.statClaims.getLast? = some c.memoryUsed := by
    simp [hs.statClaims_eq, StatStack.columns, List.getLast?_map, hlast]
  have hsplit := List.dropLast_append_getLast? _ hclaim
  have hsum : (s.statClaims.map UInt64.toNat).sum =
      (s.statClaims.dropLast.map UInt64.toNat).sum + c.memoryUsed.toNat := by
    conv_lhs => rw [← hsplit]
    simp
  obtain ⟨htracks, hheld⟩ := hp.release c.memoryUsed
  refine ⟨hs.dropLast, by simpa [hclaim] using htracks, ?_⟩
  · simp only [owed, hc, Bool.false_eq_true, if_false] at hle ⊢
    simp only [hclaim, hheld]
    omega

/-- Summing a stat by group claims its buffers only while it sums: session and pool stay as they
are, whatever it answers. -/
theorem groupStats_keeps_state (i : Nat) (st : ShardSession × Memory.Pool) :
    ((groupStats i).apply st).2 = st := by
  refine whenOpen_keeps (fun s p a s' p' hf => ?_) st
  obtain ⟨c, -, hf⟩ := bind_eq_ok.mp hf
  obtain ⟨sums, -, hf⟩ := bind_eq_ok.mp hf
  simp only [pure_eq_ok, Prod.mk.injEq] at hf
  exact ⟨hf.2.1.symm, hf.2.2.symm⟩

theorem totalDocFreq_keeps_state (fields : List Field) (st : ShardSession × Memory.Pool) :
    ((totalDocFreq fields).apply st).2 = st := by
  refine whenOpen_keeps (fun s p a s' p' hf => ?_) st
  simp only [pure_eq_ok, Prod.mk.injEq] at hf
  exact ⟨hf.2.1.symm, hf.2.2.symm⟩

/-- Counting distinct terms claims its stream buffer only while it counts: session and pool stay
as they are, whatever it answers. -/
theorem distinct_keeps_state (f : Field) (st : ShardSession × Memory.Pool) :
    ((distinct f).apply st).2 = st := by
  refine whenOpen_keeps (fun s p a s' p' hf => ?_) st
  obtain ⟨counts, -, hf⟩ := bind_eq_ok.mp hf
  simp only [pure_eq_ok, Prod.mk.injEq] at hf
  exact ⟨hf.2.1.symm, hf.2.2.symm⟩

theorem groupStats_conserves (i : Nat) : Conserves (groupStats i) fun _ => 0 :=
  .of_keeps (groupStats_keeps_state i)

theorem totalDocFreq_conserves (fields : List Field) :
    Conserves (totalDocFreq fields) fun _ => 0 :=
  .of_keeps (totalDocFreq_keeps_state fields)

theorem distinct_conserves (f : Field) : Conserves (distinct f) fun _ => 0 :=
  .of_keeps (distinct_keeps_state f)

/-- A stream takes its claim from the pool and keeps it. -/
theorem stream_conserves (fields : List Field) :
    Conserves (stream fields) fun v => v.claimed.toNat := by
  apply Settles.whenOpen
  intro s s' p p' base a hf hs hp _ _
  obtain ⟨p₁, hclaim, hf⟩ := bind_eq_ok.mp hf
  simp only [pure_eq_ok, Prod.mk.injEq] at hf
  obtain ⟨rfl, rfl, rfl⟩ := hf
  obtain ⟨htracks, hheld⟩ := hp.claim hclaim
  refine ⟨hs, htracks, ?_⟩
  simp only [hheld, ShardStream.create]
  omega

theorem close_apply (s : ShardSession) (p : Memory.Pool) :
    close.apply (s, p) =
      if s.closed then (.ok (), (s, p))
      else (.ok (), ({ s with closed := true, stats := {}, statClaims := [] },
        p.release (s.lookupClaim + s.statClaims.foldl (· + ·) 0))) := by
  unfold close
  by_cases hc : s.closed <;> simp [hc]

/-- Closing a session gives back all it owes. -/
theorem close_conserves : Conserves close fun _ => 0 := by
  intro s s' p p' base r hx hs hp hle
  rw [close_apply] at hx
  by_cases hc : s.closed
  · rw [if_pos hc] at hx
    simp only [Prod.mk.injEq] at hx
    obtain ⟨rfl, rfl, rfl⟩ := hx
    exact ⟨hs, hp, rfl⟩
  · rw [if_neg hc] at hx
    simp only [Prod.mk.injEq] at hx
    obtain ⟨rfl, rfl, rfl⟩ := hx
    simp only [owed, hc, Bool.false_eq_true, if_false] at hle ⊢
    -- what is given back is what the session owes: the sum does not wrap
    have hfold : (s.statClaims.foldl (· + ·) 0).toNat = (s.statClaims.map UInt64.toNat).sum := by
      have hlt : (s.statClaims.map UInt64.toNat).sum < 2 ^ 64 := by
        have := hp.held_le
        omega
      simpa using toNat_foldl_add_zero (fun x => x) s.statClaims hlt
    have hbytes : (s.lookupClaim + s.statClaims.foldl (· + ·) 0).toNat =
        s.lookupClaim.toNat + (s.statClaims.map UInt64.toNat).sum := by
      rw [UInt64.toNat_add, hfold, Nat.mod_eq_of_lt (by have := hp.held_le; omega)]
    obtain ⟨htracks, hheld⟩ := hp.release (s.lookupClaim + s.statClaims.foldl (· + ·) 0)
    refine ⟨⟨hs.lookupClaim_eq, rfl⟩, htracks, ?_⟩
    simp only [hheld, hbytes, kept, if_true]
    omega

theorem Conserves.pure' (a : α) : Conserves (pure a : Op α) fun _ => 0 := by
  intro s s' p p' base r hx hs hp _
  simp only [Step.apply_pure, Prod.mk.injEq] at hx
  obtain ⟨rfl, rfl, rfl⟩ := hx
  exact ⟨hs, hp, rfl⟩

theorem Conserves.get' : Conserves (get : Op (ShardSession × Memory.Pool)) fun _ => 0 := by
  intro s s' p p' base r hx hs hp _
  simp only [Step.apply_get, Prod.mk.injEq] at hx
  obtain ⟨rfl, rfl, rfl⟩ := hx
  exact ⟨hs, hp, rfl⟩

/-- Two steps that keep nothing claimed with their answers keep the books in sequence. -/
theorem Conserves.bind' {β : Type} {x : Op α} {f : α → Op β} (hx : Conserves x fun _ => 0)
    (hf : ∀ a, Conserves (f a) fun _ => 0) : Conserves (x >>= f) fun _ => 0 := by
  intro s s' p p' base r hxf hs hp hle
  rw [Step.apply_bind] at hxf
  rcases hx₁ : x.apply (s, p) with ⟨r₁, s₁, p₁⟩
  obtain ⟨hs₁, hp₁, hbal₁⟩ := hx hx₁ hs hp hle
  rw [hx₁] at hxf
  cases r₁ with
  | error e =>
    simp only [Prod.mk.injEq] at hxf
    obtain ⟨rfl, rfl, rfl⟩ := hxf
    exact ⟨hs₁, hp₁, by simpa [kept] using hbal₁⟩
  | ok a =>
    simp only [kept] at hbal₁
    obtain ⟨hs₂, hp₂, hbal₂⟩ := hf a hxf hs₁ hp₁ (by omega)
    exact ⟨hs₂, hp₂, by simp only [kept_zero] at hbal₂ ⊢; omega⟩

/-- Run on each session of a list in turn, a step that keeps the books of one session keeps
those of all: the pool moves with what the sessions owe, plus what the answers keep. -/
theorem Conserves.runShards {x : Op α} {keep : α → Nat} (hx : Conserves x keep) :
    ∀ {ss ss' : List ShardSession} {p p' : Memory.Pool} {rs : List (Except Error α)},
      MultiSession.runShards x ss p = (rs, ss', p') → (∀ s ∈ ss, s.Sound) →
      p.Tracks base → (ss.map owed).sum ≤ p.held.toNat →
        (∀ s ∈ ss', s.Sound) ∧ p'.Tracks base ∧
          p'.held.toNat + (ss.map owed).sum =
            p.held.toNat + (ss'.map owed).sum + (rs.map (kept keep)).sum
  | [], ss', p, p', rs, h, _, hp, _ => by
    simp only [MultiSession.runShards, Prod.mk.injEq] at h
    obtain ⟨rfl, rfl, rfl⟩ := h
    exact ⟨by simp, hp, by simp⟩
  | s :: rest, ss', p, p', rs, h, hs, hp, hle => by
    rcases hxs : x.apply (s, p) with ⟨r, s₁, p₁⟩
    rcases hrest : MultiSession.runShards x rest p₁ with ⟨rs₁, ss₁, p₂⟩
    simp only [MultiSession.runShards, hxs, hrest, Prod.mk.injEq] at h
    obtain ⟨rfl, rfl, rfl⟩ := h
    simp only [List.map_cons, List.sum_cons] at hle ⊢
    obtain ⟨hs₁, hp₁, hbal₁⟩ := hx hxs (hs s (List.mem_cons_self ..)) hp (by omega)
    -- the sessions after the first are owed no more than the pool holds after it
    obtain ⟨hss, hp₂, hbal₂⟩ :=
      hx.runShards hrest (fun t ht => hs t (List.mem_cons_of_mem _ ht)) hp₁ (by omega)
    refine ⟨?_, hp₂, by omega⟩
    intro t ht
    rcases List.mem_cons.mp ht with rfl | ht
    · exact hs₁
    · exact hss t ht

/-- Closing every session of a list leaves them all closed. -/
theorem runShards_close_closed :
    ∀ {ss ss' : List ShardSession} {p p' : Memory.Pool} {rs : List (Except Error Unit)},
      MultiSession.runShards close ss p = (rs, ss', p') → ∀ s ∈ ss', s.closed
  | [], ss', p, p', rs, h => by
    simp only [MultiSession.runShards, Prod.mk.injEq] at h
    obtain ⟨-, rfl, -⟩ := h
    simp
  | s :: rest, ss', p, p', rs, h => by
    rcases hrest : MultiSession.runShards close rest (close.apply (s, p)).2.2 with
      ⟨rs₁, ss₁, p₂⟩
    simp only [MultiSession.runShards, hrest, Prod.mk.injEq] at h
    obtain ⟨-, rfl, -⟩ := h
    intro t ht
    rcases List.mem_cons.mp ht with rfl | ht
    · rw [close_apply]
      split <;> simp_all
    · exact runShards_close_closed hrest t ht

end ShardSession

/-! ### Multi-sessions -/

namespace MultiSession

variable {α : Type} {m m' : MultiSession} {base live : Nat}

/-- The bytes a multi-session owes: what its shard sessions owe and, while it is open, its own
claim. -/
def owed (m : MultiSession) : Nat :=
  (m.shards.map ShardSession.owed).sum + if m.closed then 0 else m.claimed.toNat

/-- The books of a multi-session whose caller holds streams that claim `live` bytes: while it
is open, its pool's context holds what it owes and what the streams hold; once it is closed,
nothing. -/
structure Balanced (base : Nat) (m : MultiSession) (live : Nat) : Prop where
  tracks : m.pool.Tracks base
  sound : ∀ s ∈ m.shards, s.Sound
  held_eq : m.pool.held.toNat = if m.closed then 0 else m.owed + live

/-- The books read only the pool, the shard sessions, the closed flag and the fixed claim. -/
theorem Balanced.congr (h : Balanced base m live) (hpool : m'.pool = m.pool)
    (hshards : m'.shards = m.shards) (hclosed : m'.closed = m.closed)
    (hclaimed : m'.claimed = m.claimed) : Balanced base m' live where
  tracks := hpool ▸ h.tracks
  sound := hshards ▸ h.sound
  held_eq := by simpa [owed, hpool, hshards, hclosed, hclaimed] using h.held_eq

/-- Giving back bytes of the streams held gives them back to the pool; once the multi-session
is closed, there is nothing left to give. -/
theorem Balanced.release {b : UInt64} (h : Balanced base m (live + b.toNat)) :
    Balanced base { m with pool := m.pool.release b } live := by
  obtain ⟨htracks, hheld⟩ := h.tracks.release b
  refine ⟨htracks, h.sound, ?_⟩
  have := h.held_eq
  simp only [owed] at this ⊢
  rw [hheld]
  split
  · simp_all
  · simp_all
    omega

/-- Closing an open multi-session closes every shard session, gives back its own claim, then
closes the pool. -/
theorem close_eq (m : MultiSession) :
    close.apply m = if m.closed then (.ok (), m)
      else ((((runShards ShardSession.close m.shards m.pool).2.2.release m.claimed).close).2,
        { m with
          shards := (runShards ShardSession.close m.shards m.pool).2.1,
          pool := ((runShards ShardSession.close m.shards m.pool).2.2.release m.claimed).close.1,
          closed := true, table := {} }) := by
  unfold close
  by_cases hc : m.closed
  · simp [hc]
  · simp only [Step.apply_bind, Step.apply_get, hc, Bool.false_eq_true, if_false]
    generalize ((runShards ShardSession.close m.shards m.pool).2.2.release m.claimed).close = q
    rcases q with ⟨q, e | ⟨⟩⟩ <;> rfl

/-- Closing the multi-session gives back what its shard sessions owe, its own claim, and then
whatever its pool still holds: the claims of the streams held, reported as a leak unless there
are none. -/
theorem Balanced.close (h : Balanced base m live) :
    Balanced base (close.apply m).2 live ∧ (close.apply m).2.closed = true ∧
      (close.apply m).2.pool.held = 0 ∧
      (m.closed = false → ∃ b : UInt64, b.toNat = live ∧
        (close.apply m).1 = if b = 0 then .ok () else .error (.memoryLeak b)) := by
  rw [close_eq]
  by_cases hc : m.closed
  · rw [if_pos hc]
    have h0 : m.pool.held = 0 := UInt64.toNat_inj.mp (by simpa [hc] using h.held_eq)
    exact ⟨h, hc, h0, fun h' => absurd hc (by simp [h'])⟩
  · rw [if_neg hc]
    rcases hrun : runShards ShardSession.close m.shards m.pool with ⟨rs, ss, p₁⟩
    have hheld := h.held_eq
    simp only [hc, Bool.false_eq_true, if_false, owed] at hheld
    obtain ⟨hss, hp₁, hbal⟩ :=
      ShardSession.close_conserves.runShards hrun h.sound h.tracks (by omega)
    -- every shard session is closed now, so they owe nothing
    have hclosed := ShardSession.runShards_close_closed hrun
    have hzero : (ss.map ShardSession.owed).sum = 0 := by
      have : ss.map ShardSession.owed = ss.map fun _ => 0 :=
        List.map_congr_left fun s hs => by simp [ShardSession.owed, hclosed s hs]
      simp [this]
    have hkept : (ShardSession.kept fun _ : Unit => 0 : Except Error Unit → Nat) = fun _ => 0 :=
      funext fun _ => ShardSession.kept_zero
    simp only [hkept, hzero] at hbal
    simp at hbal
    obtain ⟨hp₂, hheld₂⟩ := hp₁.release m.claimed
    obtain ⟨hp₃, h0, hleak⟩ := hp₂.close
    refine ⟨⟨hp₃, hss, by simp [h0]⟩, rfl, h0,
      fun _ => ⟨(p₁.release m.claimed).held, ?_, hleak⟩⟩
    omega

/-- Every outcome is a success when the first error is none. -/
theorem firstError_eq_ok : ∀ {rs : List (Except Error α)} {vs : List α},
    firstError rs = .ok vs → rs = vs.map Except.ok
  | [], vs, h => by
    simp only [firstError, Except.ok.injEq] at h
    simp [← h]
  | .error e :: rest, vs, h => by simp [firstError] at h
  | .ok a :: rest, vs, h => by
    simp only [firstError] at h
    rcases hrest : firstError rest with e | vs'
    · simp [hrest, Functor.map, Except.map] at h
    · simp only [hrest, Functor.map, Except.map, Except.ok.injEq] at h
      subst h
      simp [firstError_eq_ok hrest]

/-- What the successful outcomes keep, given back in one sum, which does not wrap below the
word's size. -/
theorem toNat_sum_filterMap (f : Except Error α → Option UInt64) (keep : α → Nat)
    (hf : ∀ r, ((f r).map UInt64.toNat).getD 0 = ShardSession.kept keep r)
    (rs : List (Except Error α)) (h : (rs.map (ShardSession.kept keep)).sum < 2 ^ 64) :
    ((rs.filterMap f).foldl (· + ·) 0).toNat = (rs.map (ShardSession.kept keep)).sum := by
  -- the list of what the successes keep sums to what they keep
  have hsum : ∀ rs : List (Except Error α),
      ((rs.filterMap f).map UInt64.toNat).sum = (rs.map (ShardSession.kept keep)).sum := by
    intro rs
    induction rs with
    | nil => rfl
    | cons r rest ih =>
      rw [List.filterMap_cons, List.map_cons, List.sum_cons, ← hf r, ← ih]
      cases f r <;> simp
  rw [← hsum] at h ⊢
  simpa using toNat_foldl_add_zero (fun x => x) _ h

/-- Running a step on every shard keeps the books: when every shard succeeds the answers keep
what they claimed; when one fails, what the others made is given back and the multi-session is
closed. -/
theorem Balanced.execute {x : ShardSession.Op α} {drop : α → UInt64}
    (hx : ShardSession.Conserves x fun a => (drop a).toNat) (h : Balanced base m live)
    {r : Except Error (List α)} (hr : (MultiSession.execute x drop).apply m = (r, m')) :
    Balanced base m'
      (live + ShardSession.kept (fun vs => (vs.map fun a => (drop a).toNat).sum) r) := by
  unfold MultiSession.execute at hr
  by_cases hc : m.closed
  · simp [hc] at hr
    obtain ⟨rfl, rfl⟩ := hr
    simpa [ShardSession.kept] using h
  · rcases hrun : runShards x m.shards m.pool with ⟨rs, ss, p₁⟩
    simp only [Step.apply_bind, Step.apply_get, hc, hrun, Bool.false_eq_true, ↓reduceIte,
      Step.apply_set] at hr
    have hheld := h.held_eq
    simp only [hc, Bool.false_eq_true, if_false, owed] at hheld
    obtain ⟨hss, hp₁, hbal⟩ := hx.runShards hrun h.sound h.tracks (by omega)
    rcases hfirst : firstError rs with e | vs
    · -- a shard failed: what the others made is given back, then the multi-session closes
      simp only [hfirst, Step.apply_bind, Step.apply_modify, Step.apply_attempt,
        Step.apply_throw, Prod.mk.injEq] at hr
      obtain ⟨rfl, rfl⟩ := hr
      have hb : Balanced base { m with shards := ss, pool := p₁, closed := false }
          (live + (rs.map (ShardSession.kept fun a => (drop a).toNat)).sum) := by
        refine ⟨hp₁, hss, ?_⟩
        simp only [owed, Bool.false_eq_true, if_false]
        omega
      simp only [ShardSession.kept, Nat.add_zero]
      refine
        (Balanced.release (m := { m with shards := ss, pool := p₁, closed := false }) ?_).close.1
      rwa [toNat_sum_filterMap _ _ (fun r => by cases r <;> rfl) rs
        (by have := hp₁.held_le; omega)]
    · simp only [hfirst, Step.apply_pure, Prod.mk.injEq] at hr
      obtain ⟨rfl, rfl⟩ := hr
      have hrs := firstError_eq_ok hfirst
      subst hrs
      refine ⟨hp₁, hss, ?_⟩
      simp only [owed, Bool.false_eq_true, if_false, ShardSession.kept]
      simp [Function.comp_def, ShardSession.kept] at hbal
      omega

/-- A step that keeps the books of a multi-session, whatever its caller holds. -/
def Keeps {β : Type} (y : Step MultiSession β) : Prop :=
  ∀ ⦃base : Nat⦄ ⦃m m' : MultiSession⦄ ⦃live : Nat⦄ ⦃r : Except Error β⦄,
    Balanced base m live → y.apply m = (r, m') → Balanced base m' live

namespace Keeps

variable {β γ : Type}

theorem pure' (b : β) : Keeps (pure b : Step MultiSession β) := by
  intro base m m' live r h hr
  simp only [Step.apply_pure, Prod.mk.injEq] at hr
  exact hr.2 ▸ h

theorem throw' (e : Error) : Keeps (throw e : Step MultiSession β) := by
  intro base m m' live r h hr
  simp only [Step.apply_throw, Prod.mk.injEq] at hr
  exact hr.2 ▸ h

theorem bind' {y : Step MultiSession β} {f : β → Step MultiSession γ} (hy : Keeps y)
    (hf : ∀ b, Keeps (f b)) : Keeps (y >>= f) := by
  intro base m m' live r h hr
  rw [Step.apply_bind] at hr
  rcases hy₁ : y.apply m with ⟨r₁, m₁⟩
  rw [hy₁] at hr
  cases r₁ with
  | error e =>
    simp only [Prod.mk.injEq] at hr
    exact hr.2 ▸ hy h hy₁
  | ok b => exact hf b (hy h hy₁) hr

theorem map' {y : Step MultiSession β} {f : β → γ} (hy : Keeps y) : Keeps (f <$> y) := by
  intro base m m' live r h hr
  rw [Step.apply_map] at hr
  simp only [Prod.mk.injEq] at hr
  exact hr.2 ▸ hy h rfl

theorem attempt' {y : Step MultiSession β} (hy : Keeps y) : Keeps (Step.attempt y) := by
  intro base m m' live r h hr
  rw [Step.apply_attempt] at hr
  simp only [Prod.mk.injEq] at hr
  exact hr.2 ▸ hy h rfl

theorem mapM' {f : β → Step MultiSession γ} (hf : ∀ b, Keeps (f b)) :
    ∀ bs : List β, Keeps (bs.mapM f)
  | [] => pure' []
  | b :: bs => by
    rw [List.mapM_cons]
    exact bind' (hf b) fun _ => bind' (mapM' hf bs) fun _ => pure' _

/-- A step that changes neither the pool, the shard sessions, the closed flag nor the fixed
claim keeps the books. -/
theorem of_frame {y : Step MultiSession β}
    (hy : ∀ m, (y.apply m).2.pool = m.pool ∧ (y.apply m).2.shards = m.shards ∧
      (y.apply m).2.closed = m.closed ∧ (y.apply m).2.claimed = m.claimed) : Keeps y := by
  intro base m m' live r h hr
  obtain ⟨hpool, hshards, hclosed, hclaimed⟩ := hy m
  rw [hr] at hpool hshards hclosed hclaimed
  exact h.congr hpool hshards hclosed hclaimed

end Keeps

theorem close_keeps : Keeps close := by
  intro base m m' live r h hr
  have hc := h.close.1
  rw [hr] at hc
  exact hc

/-- A request on every shard that keeps nothing claimed with its answers keeps the books. -/
theorem execute_keeps {x : ShardSession.Op α} (hx : ShardSession.Conserves x fun _ => 0) :
    Keeps (execute x) := by
  intro base m m' live r h hr
  have hb := h.execute hx hr
  cases r <;> simpa [ShardSession.kept] using hb

/-- Every shard answered, so the multi-session was open and still is. -/
theorem execute_ok_open {x : ShardSession.Op α} {drop : α → UInt64} {vs : List α}
    (hr : (MultiSession.execute x drop).apply m = (.ok vs, m')) : m'.closed = false := by
  unfold MultiSession.execute at hr
  by_cases hc : m.closed
  · simp [hc] at hr
  · rcases hrun : runShards x m.shards m.pool with ⟨rs, ss, p₁⟩
    simp only [Step.apply_bind, Step.apply_get, hc, hrun, Bool.false_eq_true, ↓reduceIte,
      Step.apply_set] at hr
    rcases hfirst : firstError rs with e | vs
    · simp [hfirst] at hr
    · simp only [hfirst, Step.apply_pure, Prod.mk.injEq] at hr
      rw [← hr.2]

/-- The merged stream keeps the claims of the shards' streams and of the merge: the caller holds
them with the stream. When the merge cannot be made, the shards' streams are given back. -/
theorem Balanced.stream {fields : List Field} (h : Balanced base m live)
    {r : Except Error (Merger ShardStream × UInt64)} (hr : (stream fields).apply m = (r, m')) :
    Balanced base m' (live + ShardSession.kept (fun mh => mh.2.toNat) r) := by
  unfold MultiSession.stream at hr
  rw [Step.apply_bind] at hr
  rcases hex : (MultiSession.execute (ShardSession.stream fields)
    fun s : ShardStream => s.claimed).apply m with ⟨r₁, m₁⟩
  have hb₁ := h.execute (ShardSession.stream_conserves fields) hex
  rw [hex] at hr
  cases r₁ with
  | error e =>
    simp only [Prod.mk.injEq] at hr
    obtain ⟨rfl, rfl⟩ := hr
    simpa [ShardSession.kept] using hb₁
  | ok streams =>
    simp only [ShardSession.kept] at hb₁
    have hopen := execute_ok_open hex
    have hheld := hb₁.held_eq
    simp only [hopen, Bool.false_eq_true, if_false] at hheld
    -- the shards' claims, summed without wrapping
    have hsum : (streams.foldl (fun n (s : ShardStream) => n + s.claimed) 0).toNat =
        (streams.map fun s => s.claimed.toNat).sum :=
      toNat_foldl_add_zero _ _ (by have := hb₁.tracks.held_le; omega)
    simp only at hr
    simp only [Step.apply_bind, Step.apply_get] at hr
    have hkeep : Balanced base m₁
        (live + (streams.foldl (fun n (s : ShardStream) => n + s.claimed) 0).toNat) := by
      rw [hsum]
      exact hb₁
    split at hr
    · simp only [Step.apply_bind, Step.apply_set, Step.apply_throw, Prod.mk.injEq] at hr
      obtain ⟨rfl, rfl⟩ := hr
      simpa [ShardSession.kept] using hkeep.release
    · rename_i pool hclaim
      split at hr
      · simp only [Step.apply_bind, Step.apply_set, Step.apply_throw, Prod.mk.injEq] at hr
        obtain ⟨rfl, rfl⟩ := hr
        simpa [ShardSession.kept] using hkeep.release
      · simp only [Step.apply_bind, Step.apply_set, Step.apply_pure, Prod.mk.injEq] at hr
        obtain ⟨rfl, rfl⟩ := hr
        obtain ⟨htracks, hpool⟩ := hb₁.tracks.claim hclaim
        -- the merge's claim joins those of the shards' streams, still without wrapping
        have hbytes := htracks.held_le
        refine ⟨htracks, hb₁.sound, ?_⟩
        simp only [ShardSession.kept, owed, hopen, Bool.false_eq_true, if_false] at hheld ⊢
        rw [hpool, UInt64.toNat_add, hsum, Nat.mod_eq_of_lt (by omega)]
        omega

/-- Counting distinct terms opens the merged stream, reads it, and gives its claims back. -/
theorem distinct_keeps (f : Field) : Keeps (distinct f) := by
  intro base m m' live r h hr
  unfold MultiSession.distinct at hr
  rw [Step.apply_bind] at hr
  rcases hs : (stream [f]).apply m with ⟨r₁, m₁⟩
  have hb₁ := h.stream hs
  rw [hs] at hr
  cases r₁ with
  | error e =>
    simp only [Prod.mk.injEq] at hr
    obtain ⟨rfl, rfl⟩ := hr
    simpa [ShardSession.kept] using hb₁
  | ok mh =>
    obtain ⟨merger, held⟩ := mh
    simp only [ShardSession.kept] at hb₁
    rcases hc : Cursor.collect.apply merger with ⟨r₂, st⟩
    simp only [hc, Step.apply_bind, MultiSession.release, Step.apply_modify] at hr
    have hb₂ := hb₁.release
    cases r₂ with
    | ok b => exact Keeps.bind' (Keeps.pure' _) (fun _ => Keeps.pure' _) hb₂ hr
    | error e => exact Keeps.bind' (Keeps.throw' _) (fun _ => Keeps.pure' _) hb₂ hr

/-- A request on every shard whose reply is read off the shards' answers keeps the books. -/
theorem execute_reply_keeps {β : Type} {x : ShardSession.Op α}
    (hx : ShardSession.Conserves x fun _ => 0) (g : List α → β) :
    Keeps (execute x >>= fun vs => pure (g vs)) :=
  Keeps.bind' (execute_keeps hx) fun _ => Keeps.pure' _

/-- Every request served on the multi-session keeps the books, failed ones included. -/
theorem serve_keeps (q : Request) : Keeps (serve q) := by
  cases q with
  | regroup r =>
    exact execute_reply_keeps (ShardSession.Conserves.bind' (ShardSession.regroup_conserves r)
      fun _ => ShardSession.Conserves.bind' ShardSession.Conserves.get' fun _ =>
        ShardSession.Conserves.pure' _) _
  | pushStat metric => exact execute_reply_keeps (ShardSession.pushStat_conserves metric) _
  | popStat => exact execute_reply_keeps ShardSession.popStat_conserves _
  | groupStats i => exact execute_reply_keeps (ShardSession.groupStats_conserves i) _
  | totalDocFreq fs => exact execute_reply_keeps (ShardSession.totalDocFreq_conserves fs) _
  | distinct f => exact Keeps.map' (distinct_keeps f)
  | close => exact Keeps.bind' close_keeps fun _ => Keeps.pure' _

/-- A registration changes nothing but the rendezvous table. -/
theorem register_table (fields : List Field) (i k : Nat) (m : MultiSession) :
    ∃ t, ((register fields i k).apply m).2 = { m with table := t } := by
  rcases m with ⟨shards, pool, prime, numSplits, claimed, _ | _, table⟩
  case true => exact ⟨table, rfl⟩
  -- a refused registration leaves the multi-session as it was; an accepted one sets the table
  simp only [register, Step.apply_bind, Step.apply_get, Bool.false_eq_true, ↓reduceIte]
  by_cases hk : k = 0 ∨ k ≤ i
  · simp only [hk, ↓reduceIte]
    exact ⟨table, rfl⟩
  simp only [hk, ↓reduceIte]
  cases ha : table.arrived.isEmpty
  case false =>
    -- a later party must match the round and find its slot free
    by_cases hmis : table.numSplits ≠ k ∨ table.fields ≠ fields
    · simp only [hmis, Bool.not_false, ↓reduceIte, Step.apply_bind, Step.apply_throw]
      exact ⟨table, rfl⟩
    by_cases hdup : table.arrived.contains i = true
    · simp only [hmis, hdup, Bool.not_false, ↓reduceIte, Step.apply_bind, Step.apply_throw]
      exact ⟨table, rfl⟩
    simp only [hmis, hdup, Bool.not_false, ↓reduceIte]
    by_cases hl : (table.arrived ++ [i]).length < k <;>
      simp only [hl, ↓reduceIte] <;> exact ⟨_, rfl⟩
  case true =>
    simp only [Bool.not_true, Bool.false_eq_true, ↓reduceIte]
    by_cases hl : (table.arrived ++ [i]).length < k <;>
      simp only [hl, ↓reduceIte] <;> exact ⟨_, rfl⟩

/-- A registration fills the rendezvous table or refuses; it moves no byte. -/
theorem register_keeps (fields : List Field) (i k : Nat) : Keeps (register fields i k) := by
  refine Keeps.of_frame fun m => ?_
  obtain ⟨t, ht⟩ := register_table fields i k m
  rw [ht]
  exact ⟨rfl, rfl, rfl, rfl⟩

/-- A round works on snapshots whose claims it gives back; a failed round closes the
multi-session. -/
theorem runRound_keeps (fields : List Field) (k : Nat) : Keeps (runRound fields k) := by
  unfold runRound
  refine Keeps.bind' (Keeps.of_frame fun _ => by simp) fun m => ?_
  split
  dsimp only
  split
  · exact Keeps.bind' (Keeps.attempt' close_keeps) fun _ => Keeps.pure' _
  · exact Keeps.pure' _

theorem writeSplit_keeps (fields : List Field) (i k : Nat) : Keeps (writeSplit fields i k) := by
  unfold writeSplit
  refine Keeps.bind' (Keeps.attempt' (register_keeps fields i k)) fun a => ?_
  split
  · exact Keeps.pure' _
  · exact Keeps.pure' _
  · exact Keeps.bind' (runRound_keeps fields k) fun _ => Keeps.pure' _

theorem splitAll_keeps (fields : List Field) (k : Nat) : Keeps (splitAll fields k) := by
  unfold splitAll
  refine Keeps.bind' (Keeps.mapM' (fun i => Keeps.bind' (Keeps.attempt' (register_keeps fields i k))
    fun _ => Keeps.pure' _) _) fun arrivals => ?_
  split
  · exact Keeps.pure' _
  · exact Keeps.bind' (runRound_keeps fields k) fun _ => Keeps.pure' _

/-! ### Callers -/

/-- Dropping one of the streams held takes its claim out of what the streams hold. -/
theorem sum_eraseIdx {l : List UInt64} {i : Nat} {b : UInt64} (h : l[i]? = some b) :
    (l.map UInt64.toNat).sum = ((l.eraseIdx i).map UInt64.toNat).sum + b.toNat := by
  induction l generalizing i with
  | nil => simp at h
  | cons a t ih =>
    cases i with
    | zero =>
      simp only [List.getElem?_cons_zero, Option.some.injEq] at h
      subst h
      simp [Nat.add_comm]
    | succ i =>
      simp only [List.getElem?_cons_succ] at h
      simp only [List.map_cons, List.sum_cons, List.eraseIdx_cons_succ, ih h]
      omega

namespace Caller

variable {c : Caller}

/-- The books of a caller: its multi-session's, with the claims of the streams it holds. -/
def Balanced (base : Nat) (c : Caller) : Prop :=
  MultiSession.Balanced base c.session (c.streams.map UInt64.toNat).sum

/-- Every call keeps the caller's books. -/
theorem Balanced.step (h : c.Balanced base) (u : Use) : (c.step u).Balanced base := by
  cases u with
  | serve q => exact serve_keeps q h rfl
  | openStream fields =>
    simp only [Caller.step]
    rcases hs : (stream fields).apply c.session with ⟨_ | ⟨merger, held⟩, m⟩
    · simpa [Balanced, ShardSession.kept] using MultiSession.Balanced.stream h hs
    · -- the new stream's claims join those the caller holds
      have hb := MultiSession.Balanced.stream h hs
      simp only [ShardSession.kept] at hb
      simpa [Balanced, List.sum_append] using hb
  | dropStream i =>
    simp only [Caller.step]
    split
    · rename_i held hheld
      have hsum := sum_eraseIdx hheld
      simp only [Balanced, hsum] at h
      exact h.release
    · exact h
  | writeSplit fields i k => exact writeSplit_keeps fields i k h rfl
  | splitAll fields k => exact splitAll_keeps fields k h rfl

/-- A run of calls keeps the caller's books. -/
theorem Balanced.run (h : c.Balanced base) (us : List Use) : (c.run us).Balanced base := by
  induction us generalizing c with
  | nil => exact h
  | cons u us ih => exact ih (h.step u)

end Caller

/-! ### Opening -/

theorem foldlM_invariant {β γ : Type} {P : β → Prop} {f : β → γ → Except Error β}
    (hf : ∀ b c b', P b → f b c = .ok b' → P b') :
    ∀ (l : List γ) (b b' : β), P b → l.foldlM f b = .ok b' → P b'
  | [], b, b', hb, h => by
    simp only [List.foldlM_nil, pure, Except.pure, Except.ok.injEq] at h
    exact h ▸ hb
  | c :: l, b, b', hb, h => by
    rw [List.foldlM_cons] at h
    obtain ⟨b₁, h₁, h⟩ := bind_eq_ok.mp h
    exact foldlM_invariant hf l b₁ b' (hf b c b₁ hb h₁) h

/-- Opening a shard session claims its assignment and nothing else. -/
theorem create_settles {sh : Shard} {p p' : Memory.Pool} {batch : Nat} {initial : GroupId}
    {s : ShardSession} (hp : p.Tracks base)
    (h : ShardSession.create sh p batch initial = .ok (s, p')) :
    s.Sound ∧ s.closed = false ∧ p'.Tracks base ∧ p'.held.toNat = p.held.toNat + s.owed := by
  unfold ShardSession.create at h
  obtain ⟨p₁, hclaim, h⟩ := bind_eq_ok.mp h
  simp only [ShardSession.pure_eq_ok, Prod.mk.injEq] at h
  obtain ⟨rfl, rfl⟩ := h
  obtain ⟨htracks, hheld⟩ := hp.claim hclaim
  exact ⟨⟨rfl, rfl⟩, rfl, htracks, by simp [hheld, ShardSession.owed]⟩

/-- A multi-session that opens starts with balanced books: its context holds the claims of its
shard sessions and its own, and no stream is held. -/
theorem openAll_balanced {shards : List Shard} {pool pool' : Memory.Pool} {batch : Nat}
    {initial : GroupId} {claimed : UInt64} {prime : Int32} {numSplits : Nat} {m : MultiSession}
    (hp : pool.Tracks base) (h0 : pool.held = 0)
    (h : openAll shards pool batch initial claimed prime numSplits = (.ok m, pool')) :
    Balanced base m 0 := by
  unfold openAll at h
  dsimp only at h
  split at h
  · cases h
  · rename_i ss p hopened
    -- every session opened claims its assignment through the pool
    have hinv := foldlM_invariant
      (P := fun (acc : List ShardSession × Memory.Pool) =>
        (∀ s ∈ acc.1, s.Sound ∧ s.closed = false) ∧ acc.2.Tracks base ∧
          acc.2.held.toNat = (acc.1.map ShardSession.owed).sum)
      (fun ⟨ss, p⟩ sh ⟨ss', p'⟩ ⟨hss, hp, hheld⟩ hstep => by
        obtain ⟨⟨s, p₁⟩, hcreate, hstep⟩ := bind_eq_ok.mp hstep
        simp only [ShardSession.pure_eq_ok, Prod.mk.injEq] at hstep
        obtain ⟨rfl, rfl⟩ := hstep
        obtain ⟨hs, hopen, hp₁, hheld₁⟩ := create_settles hp hcreate
        refine ⟨fun t ht => ?_, hp₁, by simp [hheld₁, hheld, List.sum_append]⟩
        rcases List.mem_append.mp ht with ht | ht
        · exact hss t ht
        · rw [List.mem_singleton.mp ht]
          exact ⟨hs, hopen⟩)
      shards ([], pool) (ss, p) ⟨by simp, hp, by simp [h0]⟩ hopened
    obtain ⟨hss, hp', hheld⟩ := hinv
    unfold MultiSession.create at h
    -- the shard sessions are closed again only when the multi-session cannot open
    split at h
    split at h
    · simp at h
    · split at h
      · simp at h
      · rename_i pool₁ hclaim
        simp only [Prod.mk.injEq, Except.ok.injEq] at h
        obtain ⟨rfl, rfl⟩ := h
        obtain ⟨htracks, hheld₁⟩ := hp'.claim hclaim
        exact ⟨htracks, fun s hs => (hss s hs).1, by simp [hheld₁, hheld, owed]⟩

/-! ### Conservation -/

/-- What the shard sessions owe is what the open ones keep. -/
theorem sum_owed_eq {ss : List ShardSession} (h : ∀ s ∈ ss, s.Sound) :
    (ss.map ShardSession.owed).sum =
      ((ss.filter fun s => !s.closed).map ShardSession.holding).sum := by
  induction ss with
  | nil => rfl
  | cons s ss ih =>
    have hs := (h s List.mem_cons_self).owed_eq
    have hrest := ih fun t ht => h t (List.mem_cons_of_mem s ht)
    cases hc : s.closed <;> simp [hc, hs, hrest]

/-- Bytes are conserved across the sessions of one pool: through any calls, failed ones included, an
open multi-session's context holds exactly its shards' assignments and stats, its own claim and the
held streams' claims, on top of what the reservation held. Closing gives the reservation its earlier
use back and reports the held streams' claims as a leak. -/
theorem memory_conserved {shards : List Shard} {pool pool' : Memory.Pool} {batch : Nat}
    {initial : GroupId} {claimed : UInt64} {prime : Int32} {numSplits : Nat} {m : MultiSession}
    (hfresh : pool.held = 0) (hroom : pool.used ≤ pool.reservation.ceiling)
    (hopen : openAll shards pool batch initial claimed prime numSplits = (.ok m, pool'))
    (us : List Use) :
    let c := Caller.run { session := m } us
    let live := (c.streams.map UInt64.toNat).sum
    c.session.pool.used.toNat = pool.used.toNat + c.session.pool.held.toNat ∧
      (c.session.closed = false →
        c.session.pool.held.toNat = ((c.session.shards.filter fun s => !s.closed).map
          ShardSession.holding).sum + c.session.claimed.toNat + live ∧
        (close.apply c.session).2.pool.used = pool.used ∧
        ∃ b : UInt64, b.toNat = live ∧
          (close.apply c.session).1 = if b = 0 then .ok () else .error (.memoryLeak b)) ∧
      (c.session.closed = true → c.session.pool.held = 0) := by
  intro c live
  -- what the reservation held before the multi-session opened is the base of its books
  have hp : pool.Tracks pool.used.toNat :=
    ⟨by simp [hfresh], UInt64.le_iff_toNat_le.mp hroom⟩
  have hbal : c.Balanced pool.used.toNat :=
    Caller.Balanced.run (c := { session := m }) (openAll_balanced hp hfresh hopen) us
  have hheld := hbal.held_eq
  refine ⟨hbal.tracks.used_eq, fun hopen' => ⟨?_, ?_, ?_⟩, fun hclosed => ?_⟩
  · simp only [hopen', Bool.false_eq_true, if_false, owed] at hheld
    rw [hheld, sum_owed_eq hbal.sound]
  · -- closing leaves the reservation with its base alone
    obtain ⟨hclose, -, h0, -⟩ := hbal.close
    apply UInt64.toNat_inj.mp
    rw [hclose.tracks.used_eq, h0]
    rfl
  · exact hbal.close.2.2.2 hopen'
  · exact UInt64.toNat_inj.mp (by simpa [hclosed] using hheld)

/-- A multi-session over one shard of three documents, closed right after it opens, closes
cleanly and gives the reservation back all it claimed. -/
theorem open_then_close_gives_back_all :
    ∃ m pool', openAll [{ numDocs := 3 }] (Memory.Pool.create 100) 4096 0 8 0 16 =
      (.ok m, pool') ∧ (close.apply m).2.pool.used = 0 ∧ (close.apply m).1 = .ok () := by
  have hopen : openAll [{ numDocs := 3 }] (Memory.Pool.create 100) 4096 0 8 0 16 =
      (.ok _, _) := rfl
  refine ⟨_, _, hopen, ?_⟩
  obtain ⟨-, hclose, -⟩ := memory_conserved (by rfl) (by decide) hopen []
  obtain ⟨-, hused, b, hb, hres⟩ := hclose rfl
  -- no stream is held, so there is nothing to leak
  have hb0 : b = 0 := UInt64.toNat_inj.mp (hb.trans rfl)
  exact ⟨hused, hres.trans (by rw [hb0, if_pos rfl])⟩

end MultiSession

end GroupStats
