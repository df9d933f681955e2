import GroupStats.Proofs.Session.Accounting

/-!
# Failed requests change nothing

A shard session checks every argument of a request before it changes anything, so a request that
fails leaves the session and its pool as they were: the group assignment and its bound, the stat
stack, the recorded claims and the bytes the pool holds (`serve_atomic`). Summing a stat, counting
distinct terms and summing document frequencies change nothing whatever they answer. A closed
session refuses every request but closing, which does nothing more.

The stat stack and the list of claims keep step: a pushed stat records the bytes of its column as
its claim (`pushStat_apply`), and popping a stat gives back exactly the claim recorded for it
(`popStat_apply`), so pushing and popping a stat leaves the session and its pool as they were
(`pushStat_then_popStat`). A session keeps that record through every request, failed ones
included (`Books.afterRequests`).
-/

namespace GroupStats

namespace Memory.Pool

variable {p p' : Pool} {base : Nat} {bytes : UInt64}

/-- A pool that tracks its reservation gives back exactly what a claim took. -/
theorem Tracks.release_claim (h : p.Tracks base) (hc : p.claim bytes = .ok p') :
    p'.release bytes = p := by
  have hheld := (h.claim hc).2
  unfold Pool.claim at hc
  cases hr : p.reservation.claim bytes with
  | error e => simp [hr, bind, Except.bind] at hc
  | ok r =>
    simp only [hr, bind, Except.bind, pure, Except.pure, Except.ok.injEq] at hc
    subst hc
    obtain ⟨hfit, rfl⟩ := Reservation.claim_eq_ok.mp hr
    have hceil := p.reservation.ceiling.toNat_lt
    -- neither the reservation nor the context wrapped, so each gives back the whole claim
    have hused : (p.reservation.used + bytes).toNat = p.reservation.used.toNat + bytes.toNat := by
      rw [UInt64.toNat_add, Nat.mod_eq_of_lt (by omega)]
    simp only [held] at hheld
    have hctx : min (p.context.used + bytes) bytes = bytes :=
      UInt64.toNat_inj.mp (by rw [UInt64.toNat_min]; omega)
    have hres : min (p.reservation.used + bytes) bytes = bytes :=
      UInt64.toNat_inj.mp (by rw [UInt64.toNat_min]; omega)
    simp only [Pool.release, Reservation.release, hctx, hres, add_sub_cancel_right]

end Memory.Pool

namespace ShardSession

variable {α : Type} {s : ShardSession} {p : Memory.Pool}

/-! ### Requests that fail change nothing -/

/-- A step that fails leaves the session and its pool as it found them. -/
def Atomic (x : Op α) : Prop :=
  ∀ st e st', x.apply st = (.error e, st') → st' = st

namespace Atomic

/-- A step that fails cleanly, followed by one that cannot fail, fails cleanly. -/
theorem bind_pure {β : Type} {x : Op α} (hx : Atomic x) (g : α → β) :
    Atomic (x >>= fun a => pure (g a)) := by
  intro st e st' h
  rw [Step.apply_bind] at h
  rcases hx' : x.apply st with ⟨_ | a, st₁⟩
  · rw [hx'] at h
    obtain ⟨-, rfl⟩ := Prod.mk.inj h
    exact hx st _ st₁ hx'
  · rw [hx'] at h
    simp at h

theorem map {β : Type} {x : Op α} (hx : Atomic x) (g : α → β) : Atomic (g <$> x) := by
  rw [← bind_pure_comp]
  exact hx.bind_pure g

end Atomic

/-- A request on an open session commits what its body leaves only when the body succeeds. -/
theorem whenOpen_atomic
    (f : ShardSession → Memory.Pool → Except Error (α × ShardSession × Memory.Pool)) :
    Atomic (whenOpen f) := by
  rintro ⟨s, p⟩ e st' h
  rw [whenOpen_apply] at h
  split at h
  · exact (Prod.mk.inj h).2.symm
  · split at h
    · cases (Prod.mk.inj h).1
    · exact (Prod.mk.inj h).2.symm

/-- Closing never fails. -/
theorem close_atomic : Atomic close := by
  rintro ⟨s, p⟩ e st' h
  rw [close_apply] at h
  split at h <;> cases (Prod.mk.inj h).1

/-- Every request that fails leaves the session and its pool as they were. -/
theorem serve_atomic (q : Request) : Atomic (serve q) := by
  cases q with
  | regroup r => exact (whenOpen_atomic _).bind_pure _
  | pushStat m => exact (whenOpen_atomic _).map _
  | popStat => exact (whenOpen_atomic _).map _
  | groupStats i => exact (whenOpen_atomic _).map _
  | totalDocFreq fs => exact (whenOpen_atomic _).map _
  | distinct f => exact (whenOpen_atomic _).map _
  | close => exact close_atomic.bind_pure _

theorem stream_atomic (fields : List Field) : Atomic (stream fields) :=
  whenOpen_atomic _

/-! ### Closed sessions -/

theorem whenOpen_closed (hc : s.closed = true)
    (f : ShardSession → Memory.Pool → Except Error (α × ShardSession × Memory.Pool)) :
    (whenOpen f).apply (s, p) = (.error (.closed .shardSession), (s, p)) := by
  rw [whenOpen_apply, if_pos hc]

/-- A closed session refuses every request but closing, and changes nothing. -/
theorem serve_closed (hc : s.closed = true) {q : Request} (hq : q ≠ .close) :
    (serve q).apply (s, p) = (.error (.closed .shardSession), (s, p)) := by
  cases q with
  | regroup r => simp [serve, regroup, whenOpen_closed hc]
  | pushStat m => simp [serve, pushStat, whenOpen_closed hc]
  | popStat => simp [serve, popStat, whenOpen_closed hc]
  | groupStats i => simp [serve, groupStats, whenOpen_closed hc]
  | totalDocFreq fs => simp [serve, totalDocFreq, whenOpen_closed hc]
  | distinct f => simp [serve, distinct, whenOpen_closed hc]
  | close => exact absurd rfl hq

/-- Closing leaves the session closed. -/
theorem close_closes (st : ShardSession × Memory.Pool) : (close.apply st).2.1.closed = true := by
  obtain ⟨s, p⟩ := st
  rw [close_apply]
  split
  · assumption
  · rfl

/-- Closing a closed session does nothing. -/
theorem close_closed (hc : s.closed = true) : close.apply (s, p) = (.ok (), (s, p)) := by
  rw [close_apply, if_pos hc]

/-! ### Pushing and popping stats -/

/-- Pushing a stat the shard has, on an open session whose pool admits its column, claims the bytes
of the column and records them as the stat's claim. -/
theorem pushStat_apply (hc : s.closed = false) {metric : String} {c : StatColumn}
    (hs : s.shard.stat metric = .ok c) {p' : Memory.Pool} (hclaim : p.claim c.memoryUsed = .ok p') :
    (pushStat metric).apply (s, p) = (.ok (s.stats.depth + 1),
      ({ s with stats := (s.stats.push metric c).1, statClaims := s.statClaims ++ [c.memoryUsed] },
        p')) := by
  rw [pushStat, whenOpen_apply, if_neg (by simp [hc])]
  simp [hs, hclaim, bind, Except.bind, pure, Except.pure, StatStack.push, StatStack.depth]

/-- Popping the last stat of an open session that records its claims gives back exactly the bytes
of the popped column. -/
theorem popStat_apply (hs : s.Sound) (hc : s.closed = false) {metric : String} {c : StatColumn}
    (hlast : s.stats.entries.getLast? = some (metric, c)) :
    popStat.apply (s, p) = (.ok (s.stats.depth - 1),
      ({ s with stats := ⟨s.stats.entries.dropLast⟩, statClaims := s.statClaims.dropLast },
        p.release c.memoryUsed)) := by
  have hclaim : s.statClaims.getLast? = some c.memoryUsed := by
    simp [hs.statClaims_eq, StatStack.columns, List.getLast?_map, hlast]
  have hpop : s.stats.pop = .ok (metric, c, ⟨s.stats.entries.dropLast⟩) := by
    simp [StatStack.pop, hlast]
  rw [popStat, whenOpen_apply, if_neg (by simp [hc])]
  simp [hpop, hclaim, bind, Except.bind, pure, Except.pure, StatStack.depth]

/-- Pushing a stat and popping it again leaves the session and its pool as they were. -/
theorem pushStat_then_popStat {base : Nat} (hs : s.Sound) (hc : s.closed = false)
    (hp : p.Tracks base) {metric : String} {c : StatColumn} (hstat : s.shard.stat metric = .ok c)
    {p' : Memory.Pool} (hclaim : p.claim c.memoryUsed = .ok p') :
    (pushStat metric >>= fun _ => popStat).apply (s, p) = (.ok s.stats.depth, (s, p)) := by
  rw [Step.apply_bind, pushStat_apply hc hstat hclaim]
  dsimp only
  have hlast : (s.stats.push metric c).1.entries.getLast? = some (metric, c) := by
    simp [StatStack.push]
  rw [popStat_apply (hs.push metric c) hc hlast, hp.release_claim hclaim]
  simp [StatStack.push, StatStack.depth]

/-! ### The record of claims along every run -/

/-- The session and pool after serving requests in turn, failed ones included. -/
def afterRequests (qs : List Request) (st : ShardSession × Memory.Pool) :
    ShardSession × Memory.Pool :=
  qs.foldl (fun st q => ((serve q).apply st).2) st

/-- The books of a session and its pool: the session records its claims, the pool tracks what its
reservation holds besides, and the pool holds at least what the session owes. -/
structure Books (base : Nat) (st : ShardSession × Memory.Pool) : Prop where
  sound : st.1.Sound
  tracks : st.2.Tracks base
  owed_le : st.1.owed ≤ st.2.held.toNat

theorem Conserves.map' {β : Type} {x : Op α} (hx : Conserves x fun _ => 0) (g : α → β) :
    Conserves (g <$> x) fun _ => 0 := by
  rw [← bind_pure_comp]
  exact hx.bind' fun _ => .pure' _

/-- Every request keeps the books, failed ones included. -/
theorem serve_conserves (q : Request) : Conserves (serve q) fun _ => 0 := by
  cases q with
  | regroup r => exact (regroup_conserves r).bind' fun _ => .pure' _
  | pushStat m => exact (pushStat_conserves m).map' _
  | popStat => exact popStat_conserves.map' _
  | groupStats i => exact (groupStats_conserves i).map' _
  | totalDocFreq fs => exact (totalDocFreq_conserves fs).map' _
  | distinct f => exact (distinct_conserves f).map' _
  | close => exact close_conserves.bind' fun _ => .pure' _

/-- A step that keeps the books leaves books kept. -/
theorem Books.step {base : Nat} {st : ShardSession × Memory.Pool} {x : Op α}
    (hx : Conserves x fun _ => 0) (h : Books base st) : Books base (x.apply st).2 := by
  obtain ⟨s, p⟩ := st
  rcases hxs : x.apply (s, p) with ⟨r, s', p'⟩
  obtain ⟨hs', hp', hbal⟩ := hx hxs h.sound h.tracks h.owed_le
  have hle := h.owed_le
  rw [kept_zero, Nat.add_zero] at hbal
  exact ⟨hs', hp', by dsimp only at hle ⊢; omega⟩

/-- The books stay kept through any requests. -/
theorem Books.afterRequests {base : Nat} :
    ∀ (qs : List Request) {st : ShardSession × Memory.Pool}, Books base st →
      Books base (afterRequests qs st)
  | [], _, h => h
  | q :: qs, _, h => Books.afterRequests qs (h.step (serve_conserves q))

/-- A session opened through a pool that tracks its reservation starts with its books kept. -/
theorem books_create {base : Nat} {sh : Shard} {pool : Memory.Pool} {batch : Nat}
    {initial : GroupId} {st : ShardSession × Memory.Pool} (hp : pool.Tracks base)
    (h : create sh pool batch initial = .ok st) : Books base st := by
  obtain ⟨s, p⟩ := st
  obtain ⟨hs, -, hp', hheld⟩ := MultiSession.create_settles hp h
  exact ⟨hs, hp', by dsimp only; omega⟩

/-- A session that records its claims has as many claims as stats. -/
theorem Sound.length_eq (h : s.Sound) : s.statClaims.length = s.stats.depth := by
  simp [h.statClaims_eq, StatStack.columns, StatStack.depth]

/-! ### Failures together -/

/-- Failed requests change nothing: a failed request or stream leaves session and pool as they were,
a pushed stat's bytes are claimed, recorded and given back exactly when popped, and a tracked
session keeps one claim per stat through any requests. A closed session refuses every request but
closing and changes nothing. -/
theorem failed_requests_change_nothing :
    (∀ q st e st', (serve q).apply st = (.error e, st') → st' = st) ∧
    (∀ fields st e st', (stream fields).apply st = (.error e, st') → st' = st) ∧
    (∀ i st, ((groupStats i).apply st).2 = st) ∧
    (∀ f st, ((distinct f).apply st).2 = st) ∧
    (∀ fields st, ((totalDocFreq fields).apply st).2 = st) ∧
    (∀ (s : ShardSession) (p p' : Memory.Pool) metric c, s.closed = false →
      s.shard.stat metric = .ok c → p.claim c.memoryUsed = .ok p' →
        (pushStat metric).apply (s, p) = (.ok (s.stats.depth + 1),
          ({ s with stats := (s.stats.push metric c).1, statClaims := s.statClaims ++ [c.memoryUsed] },
            p'))) ∧
    (∀ (s : ShardSession) (p : Memory.Pool) metric c, s.Sound → s.closed = false →
      s.stats.entries.getLast? = some (metric, c) →
        popStat.apply (s, p) = (.ok (s.stats.depth - 1),
          ({ s with stats := ⟨s.stats.entries.dropLast⟩, statClaims := s.statClaims.dropLast },
            p.release c.memoryUsed))) ∧
    (∀ (s : ShardSession) (p p' : Memory.Pool) base metric c, s.Sound → s.closed = false →
      p.Tracks base → s.shard.stat metric = .ok c → p.claim c.memoryUsed = .ok p' →
        (pushStat metric >>= fun _ => popStat).apply (s, p) = (.ok s.stats.depth, (s, p))) ∧
    (∀ sh (pool : Memory.Pool) base batch initial st, pool.Tracks base →
      create sh pool batch initial = .ok st → ∀ qs,
        (afterRequests qs st).1.statClaims =
            (afterRequests qs st).1.stats.columns.map StatColumn.memoryUsed ∧
          (afterRequests qs st).1.statClaims.length = (afterRequests qs st).1.stats.depth) ∧
    (∀ st, (close.apply st).2.1.closed = true) ∧
    (∀ (s : ShardSession) (p : Memory.Pool) q, s.closed = true → q ≠ .close →
      (serve q).apply (s, p) = (.error (.closed .shardSession), (s, p))) ∧
    (∀ (s : ShardSession) (p : Memory.Pool) fields, s.closed = true →
      (stream fields).apply (s, p) = (.error (.closed .shardSession), (s, p))) ∧
    (∀ (s : ShardSession) (p : Memory.Pool), s.closed = true → close.apply (s, p) = (.ok (), (s, p))) := by
  refine ⟨fun q => serve_atomic q, fun fields => stream_atomic fields, groupStats_keeps_state,
    distinct_keeps_state, totalDocFreq_keeps_state,
    fun s p p' metric c hc hs hclaim => pushStat_apply hc hs hclaim,
    fun s p metric c hs hc hlast => popStat_apply hs hc hlast,
    fun s p p' base metric c hs hc hp hstat hclaim => pushStat_then_popStat hs hc hp hstat hclaim,
    fun sh pool base batch initial st hp hcreate qs => ?_, fun st => close_closes st,
    fun s p q hc hq => serve_closed hc hq, fun s p fields hc => whenOpen_closed hc _,
    fun s p hc => close_closed hc⟩
  -- the record of claims is part of the books, which every request keeps
  have hs := ((books_create hp hcreate).afterRequests qs).sound
  exact ⟨hs.statClaims_eq, hs.length_eq⟩

/-- On a session opened over three documents through a pool of 100 bytes, pushing the document
count and popping it again leaves the session and the pool as they were. -/
theorem push_then_pop_on_fresh_session :
    ∃ s p, create { numDocs := 3 } (Memory.Pool.create 100) 1 0 = .ok (s, p) ∧
      (pushStat Shard.countMetric >>= fun _ => popStat).apply (s, p) = (.ok 0, (s, p)) := by
  have hcreate : create { numDocs := 3 } (Memory.Pool.create 100) 1 0 = .ok _ := rfl
  have hpool : (Memory.Pool.create 100).Tracks 0 := ⟨rfl, Nat.zero_le _⟩
  obtain ⟨hs, hc, hp, -⟩ := MultiSession.create_settles hpool hcreate
  refine ⟨_, _, hcreate, ?_⟩
  exact failed_requests_change_nothing.2.2.2.2.2.2.2.1 _ _ _ 0 Shard.countMetric
    ⟨Array.replicate 3 1⟩ hs hc hp rfl rfl

end ShardSession

end GroupStats
