import GroupStats.Proofs.Session.Distinct
import GroupStats.Proofs.Memory.Ledger

/-!
# Group stats across shards

The per-group sums of a pushed stat. A shard session walks its documents in batches and adds each
document's value at the slot of its group, skipping group 0; whatever the batch size, slot `g`
ends up with the wrapping sum of the stat over the documents of group `g`, and slot 0 with
zero (`sumByGroup_toList`). A multi-session adds its shards' lists place by place, to the
length of the longest (`sumPlaces_eq`), which for bounded assignments is the sum over every shard
and every document of each group (`sumPlaces_sums`).

Each shard session claims a buffer of eight bytes per group for the time it sums, and the shards
sum side by side. So the request answers when the shared pool has room for every buffer at once
(`RoomForSums`), and fails out of memory and closes the multi-session when it has no room for
some session's buffer alone (`groupStats_sums`). Between the two, the outcome rests on how the
shards' claims overlap.
-/

namespace GroupStats

/-! ### Slots filled by additions -/

/-- Adding the values of pairs outside group 0 at the slots of their groups adds to a slot the
values of the pairs naming it. -/
theorem getElem?_foldl_add_slot {F : Array Int64 → GroupId × Int64 → Array Int64}
    (hF : ∀ a g v, F a (g, v) = if g = noGroup then a else a.modify g.toNat (· + v))
    (ps : List (GroupId × Int64)) (a : Array Int64) (j : Nat) :
    (ps.foldl F a)[j]? =
      a[j]?.map (· + ((ps.filter fun p => p.1 ≠ noGroup ∧ p.1.toNat = j).map (·.2)).sum) := by
  induction ps generalizing a with
  | nil =>
    rw [List.foldl_nil]
    cases a[j]? <;> simp
  | cons p ps ih =>
    obtain ⟨g, v⟩ := p
    rw [List.foldl_cons, ih, hF]
    by_cases hg : g = noGroup
    · rw [if_pos hg]
      simp [hg]
    · rw [if_neg hg, Array.getElem?_modify]
      by_cases hj : g.toNat = j
      · cases a[j]? <;> simp [hg, hj, Int64.add_assoc]
      · cases a[j]? <;> simp [hg, hj]

theorem sum_map_zero {α : Type} (xs : List α) : (xs.map fun _ => (0 : Int64)).sum = 0 := by
  induction xs with
  | nil => rfl
  | cons x xs ih => rw [List.map_cons, List.sum_cons, ih, Int64.add_zero]

theorem zip_map_map {α β γ : Type} (f : α → β) (g : α → γ) (xs : List α) :
    (xs.map f).zip (xs.map g) = xs.map fun x => (f x, g x) := by
  induction xs with
  | nil => rfl
  | cons x xs ih => simp [ih]

namespace Lookup

variable (l : Lookup)

/-- The documents of an assignment, by id. -/
def docs : List DocId := (List.range l.size).map Nat.toUInt32

/-- The wrapping sum of a stat over the documents of one group. -/
def groupSum (c : StatColumn) (g : GroupId) : Int64 :=
  ((l.docs.filter (l.get · = g)).map c.get).sum

/-- What the documents of a list add to slot `j`: the stat summed over those outside group 0
whose group has the number `j`. -/
def slotSum (c : StatColumn) (ds : List DocId) (j : Nat) : Int64 :=
  ((ds.filter fun d => l.get d ≠ noGroup ∧ (l.get d).toNat = j).map c.get).sum

theorem slotSum_append (c : StatColumn) (xs ys : List DocId) (j : Nat) :
    l.slotSum c (xs ++ ys) j = l.slotSum c xs j + l.slotSum c ys j := by
  simp [slotSum, List.filter_append, List.sum_append]

/-- Adding batches one after another adds to each slot what all their documents add. -/
theorem getElem?_foldl_batches (c : StatColumn) {F : Array Int64 → List DocId → Array Int64}
    (hF : ∀ a part j, (F a part)[j]? = a[j]?.map (· + l.slotSum c part j))
    (parts : List (List DocId)) (a : Array Int64) (j : Nat) :
    (parts.foldl F a)[j]? = a[j]?.map (· + l.slotSum c parts.flatten j) := by
  induction parts generalizing a with
  | nil =>
    rw [List.foldl_nil]
    cases a[j]? <;> simp [slotSum]
  | cons part parts ih =>
    rw [List.foldl_cons, ih, hF, List.flatten_cons, slotSum_append]
    cases a[j]? <;> simp [Int64.add_assoc]

/-- Slot `j` of the sums holds what all documents add to it, for each slot below the bound. -/
theorem getElem?_sumByGroup (c : StatColumn) (batch j : Nat) :
    (l.sumByGroup c batch)[j]? =
      if j < l.numGroups.toNat then some (l.slotSum c l.docs j) else none := by
  unfold sumByGroup
  rw [l.getElem?_foldl_batches c (fun a part j => ?_), flatten_chunks, Array.getElem?_replicate]
  · split <;> simp [docs]
  · -- one batch pairs each document with its group and value, and adds the pairs
    rw [getElem?_foldl_add_slot (fun _ _ _ => rfl), groupsOf, StatColumn.lookup, zip_map_map,
      List.filter_map, List.map_map]
    rfl

/-- Slot 0 gets nothing, and slot `j` of a group id gets the sum over that group. -/
theorem slotSum_docs (c : StatColumn) {j : Nat} (hj : j < 2 ^ 32) :
    l.slotSum c l.docs j = if j = 0 then 0 else l.groupSum c j.toUInt32 := by
  unfold slotSum groupSum
  by_cases h0 : j = 0
  · subst h0
    rw [if_pos rfl, List.filter_eq_nil_iff.mpr fun d _ => ?_]
    · rfl
    · have : (l.get d).toNat = 0 ↔ l.get d = noGroup := by
        rw [← UInt32.toNat_inj]
        rfl
      simp [this]
  · rw [if_neg h0]
    congr 2
    refine List.filter_congr fun d _ => ?_
    have hid : (l.get d).toNat = j ↔ l.get d = j.toUInt32 := by
      rw [← UInt32.toNat_inj, UInt32.toNat_ofNat_of_lt' hj]
    have hne : j.toUInt32 ≠ noGroup := mt (toUInt32_eq_noGroup_iff hj).mp h0
    simp only [hid, decide_eq_decide]
    constructor
    · exact fun h => h.2
    · exact fun h => ⟨h ▸ hne, h⟩

/-- The sums of a stat by group: for every group below the bound, the wrapping sum of the stat
over the documents of the group, and zero for group 0. They are the same for every batch
size. -/
theorem sumByGroup_toList (c : StatColumn) (batch : Nat) :
    (l.sumByGroup c batch).toList =
      (List.range l.numGroups.toNat).map fun j => if j = 0 then 0 else l.groupSum c j.toUInt32 := by
  apply List.ext_getElem?
  intro j
  rw [Array.getElem?_toList, getElem?_sumByGroup, List.getElem?_map]
  by_cases hj : j < l.numGroups.toNat
  · rw [if_pos hj, List.getElem?_range hj, l.slotSum_docs c (Nat.lt_trans hj l.numGroups.toNat_lt)]
    rfl
  · rw [if_neg hj, List.getElem?_eq_none (by simpa using hj)]
    rfl

/-- A bounded assignment has no document in a group at or past its bound. -/
theorem Bounded.groupSum_eq_zero {l : Lookup} (hl : l.Bounded) (c : StatColumn) {j : Nat}
    (hj : j < 2 ^ 32) (hle : l.numGroups.toNat ≤ j) : l.groupSum c j.toUInt32 = 0 := by
  unfold groupSum
  rw [List.filter_eq_nil_iff.mpr fun d _ => ?_]
  · rfl
  · intro hd
    have hg : l.get d = j.toUInt32 := of_decide_eq_true hd
    have hone := UInt32.le_iff_toNat_le.mp hl.one_le
    have h0 : l.get d ≠ noGroup := by
      rw [hg]
      exact mt (toUInt32_eq_noGroup_iff hj).mp (by simp at hone; omega)
    have hlt := UInt32.lt_iff_toNat_lt.mp (hl.get_lt h0)
    rw [hg, UInt32.toNat_ofNat_of_lt' hj] at hlt
    omega

/-- Read at any group id, with zero past the end, the sums of a bounded assignment give the sum
over the documents of that group. -/
theorem Bounded.getD_sumByGroup {l : Lookup} (hl : l.Bounded) (c : StatColumn) (batch : Nat)
    {j : Nat} (hj : j < 2 ^ 32) :
    (l.sumByGroup c batch).toList.getD j 0 = if j = 0 then 0 else l.groupSum c j.toUInt32 := by
  rw [sumByGroup_toList]
  by_cases hlt : j < l.numGroups.toNat
  · rw [List.getD_eq_getElem?_getD, List.getElem?_map, List.getElem?_range hlt]
    rfl
  · rw [List.getD_eq_getElem?_getD, List.getElem?_eq_none (by simpa using hlt),
      hl.groupSum_eq_zero c hj (by omega)]
    split <;> rfl

end Lookup

/-! ### Adding lists place by place -/

namespace MultiSession

/-- Adding lists place by place adds to each place what every list holds there. -/
theorem getElem?_foldl_places {F : List Int64 → List Int64 → List Int64}
    (hF : ∀ acc xs j, (F acc xs)[j]? = acc[j]?.map (· + xs.getD j 0))
    (xss : List (List Int64)) (acc : List Int64) (j : Nat) :
    (xss.foldl F acc)[j]? = acc[j]?.map (· + (xss.map (·.getD j 0)).sum) := by
  induction xss generalizing acc with
  | nil =>
    rw [List.foldl_nil]
    cases acc[j]? <;> simp
  | cons xs xss ih =>
    rw [List.foldl_cons, ih, hF]
    cases acc[j]? <;> simp [Int64.add_assoc]

/-- The sum of lists place by place: at each place below the longest length, the wrapping sum of
what every list holds there, a list too short counting zero. -/
theorem sumPlaces_eq (xss : List (List Int64)) :
    sumPlaces xss =
      (List.range (largest 0 (xss.map List.length))).map fun j => (xss.map (·.getD j 0)).sum := by
  apply List.ext_getElem?
  intro j
  unfold sumPlaces
  rw [getElem?_foldl_places (fun acc xs j => ?_), List.getElem?_replicate, List.getElem?_map]
  · by_cases hj : j < largest 0 (xss.map List.length)
    · simp [hj]
    · simp [hj]
  · simp only [List.getElem?_map, List.getElem?_zipIdx, Option.map_map, Nat.zero_add]
    rfl

/-- The largest of natural numbers, from zero, is their running maximum. -/
theorem largest_zero_eq_foldr (xs : List Nat) : largest 0 xs = xs.foldr max 0 := by
  cases xs with
  | nil => rfl
  | cons x xs =>
    show xs.foldl max x = max x (xs.foldr max 0)
    induction xs generalizing x with
    | nil => simp
    | cons y ys ih => simp only [List.foldl_cons, List.foldr_cons, ih, Nat.max_assoc]

theorem foldr_max_lt {xs : List Nat} {b : Nat} (hb : 0 < b) (h : ∀ x ∈ xs, x < b) :
    xs.foldr max 0 < b := by
  induction xs with
  | nil => exact hb
  | cons x xs ih =>
    exact Nat.max_lt.mpr ⟨h x List.mem_cons_self, ih fun y hy => h y (List.mem_cons_of_mem _ hy)⟩

end MultiSession

/-! ### A shard session's sums -/

namespace ShardSession

variable {s : ShardSession} {p : Memory.Pool} {i : Nat}

/-- The column of the stat at place `i` of the stack. -/
def column (s : ShardSession) (i : Nat) : StatColumn := s.stats.columns.getD i ⟨#[]⟩

/-- The pool has room for the buffer of a session's sums: eight bytes per group. -/
def RoomToSum (p : Memory.Pool) (s : ShardSession) : Prop :=
  p.used.toNat + (8 * s.lookup.numGroups.toUInt64).toNat ≤ p.reservation.ceiling.toNat

theorem stats_get (hi : i < s.stats.depth) : s.stats.get i = .ok (s.column i) := by
  have hi' : i < s.stats.entries.length := hi
  simp [StatStack.get, column, StatStack.columns, hi']

/-- An open session with the stat pushed and room in its pool answers its sums and is left as
it was. -/
theorem groupStats_apply (hc : s.closed = false) (hi : i < s.stats.depth) (hroom : RoomToSum p s) :
    (groupStats i).apply (s, p) =
      (.ok (s.lookup.sumByGroup (s.column i) s.batch).toList, (s, p)) := by
  obtain ⟨p', hclaim, -⟩ := Memory.Pool.claim_of_room hroom
  rw [groupStats, whenOpen_apply, if_neg (by simp [hc])]
  simp [stats_get hi, Memory.Pool.during, hclaim, bind, Except.bind, pure, Except.pure]

/-- Without room for the buffer, an open session with the stat pushed fails out of memory and is
left as it was. -/
theorem groupStats_apply_of_full (hc : s.closed = false) (hi : i < s.stats.depth)
    (hroom : ¬ RoomToSum p s) :
    ∃ e, (groupStats i).apply (s, p) = (.error e, (s, p)) ∧ e.isOutOfMemory = true := by
  have hclaim : p.claim (8 * s.lookup.numGroups.toUInt64) =
      .error (.outOfMemory (8 * s.lookup.numGroups.toUInt64) p.reservation.available) :=
    Memory.Pool.claim_eq_error.mpr (Memory.Reservation.claim_eq_error.mpr
      ⟨by unfold RoomToSum Memory.Pool.used at hroom; omega, rfl⟩)
  refine ⟨.outOfMemory (8 * s.lookup.numGroups.toUInt64) p.reservation.available, ?_, rfl⟩
  rw [groupStats, whenOpen_apply, if_neg (by simp [hc])]
  simp [stats_get hi, Memory.Pool.during, hclaim, bind, Except.bind]

end ShardSession

/-! ### The sums of a multi-session -/

namespace ShardSession

/-- For every group below the largest bound of the sessions' assignments, the wrapping sum of
the stat at place `i` over every session and every document of the group; zero for group 0. -/
def groupTotals (ss : List ShardSession) (i : Nat) : List Int64 :=
  (List.range ((ss.map (·.lookup.numGroups.toNat)).foldr max 0)).map fun j =>
    if j = 0 then 0 else (ss.map fun s => s.lookup.groupSum (s.column i) j.toUInt32).sum

end ShardSession

namespace MultiSession

variable {m : MultiSession} {i : Nat}

/-- A step that leaves every session and the pool as they were gives each shard's outcome from
the same pool. -/
theorem runShards_of_keeps {α : Type} {x : ShardSession.Op α} (hx : ∀ st, (x.apply st).2 = st) :
    ∀ (ss : List ShardSession) (p : Memory.Pool),
      runShards x ss p = (ss.map fun s => (x.apply (s, p)).1, ss, p)
  | [], _ => rfl
  | s :: rest, p => by
    have hs := hx (s, p)
    rcases h : x.apply (s, p) with ⟨r, s', p'⟩
    rw [h] at hs
    cases hs
    simp only [runShards, h, runShards_of_keeps hx rest p, List.map_cons]

/-- Among outcomes that are answers or errors of one kind, the first error, when there is one,
is of that kind. -/
theorem firstError_of_mem {α : Type} {P : Error → Prop} :
    ∀ {rs : List (Except Error α)}, (∀ e, .error e ∈ rs → P e) → (∃ e, .error e ∈ rs) →
      ∃ e, firstError rs = .error e ∧ P e
  | [], _, ⟨_, he⟩ => nomatch he
  | .error e :: _, hP, _ => ⟨e, rfl, hP e List.mem_cons_self⟩
  | .ok a :: rest, hP, ⟨e, he⟩ => by
    have hrest : ∀ e, .error e ∈ rest → P e := fun e h => hP e (List.mem_cons_of_mem _ h)
    obtain ⟨e', he', hPe'⟩ := firstError_of_mem hrest ⟨e, by simpa using he⟩
    exact ⟨e', by simp [firstError, he', Functor.map, Except.map], hPe'⟩

/-- A step that fails on some shard of an open multi-session answers the first failure and
leaves the multi-session closed. -/
theorem execute_of_firstError {α : Type} {x : ShardSession.Op α} {drop : α → UInt64} {e : Error}
    (hopen : m.closed = false) (hfirst : firstError (runShards x m.shards m.pool).1 = .error e) :
    ∃ m', (execute x drop).apply m = (.error e, m') ∧ m'.closed = true := by
  rcases hrun : runShards x m.shards m.pool with ⟨rs, ss, p₁⟩
  rw [hrun] at hfirst
  unfold execute
  simp only [Step.apply_bind, Step.apply_get, hopen, hrun, Bool.false_eq_true, if_false,
    Step.apply_set, hfirst, Step.apply_modify, Step.apply_attempt, Step.apply_throw]
  refine ⟨_, rfl, ?_⟩
  rw [close_eq]
  simp

/-- The sessions' sums added place by place are the group totals over all the sessions, when
every assignment lies below its bound. -/
theorem sumPlaces_sums (ss : List ShardSession) (hb : ∀ s ∈ ss, s.lookup.Bounded) :
    sumPlaces (ss.map fun s => (s.lookup.sumByGroup (s.column i) s.batch).toList) =
      ShardSession.groupTotals ss i := by
  have hlen : (ss.map fun s => (s.lookup.sumByGroup (s.column i) s.batch).toList).map
      List.length = ss.map (·.lookup.numGroups.toNat) := by
    rw [List.map_map]
    exact List.map_congr_left fun s _ => by simp [Lookup.sumByGroup_toList]
  rw [sumPlaces_eq, hlen, largest_zero_eq_foldr, ShardSession.groupTotals]
  refine List.map_congr_left fun j hj => ?_
  -- a group below the largest bound has an id, and each session adds its own sum over it
  have hj32 : j < 2 ^ 32 := lt_of_lt_of_le (List.mem_range.mp hj) (Nat.le_of_lt
    (foldr_max_lt (by norm_num) fun n hn => by
      obtain ⟨s, -, rfl⟩ := List.mem_map.mp hn
      exact s.lookup.numGroups.toNat_lt))
  have hsum : (ss.map fun s => (s.lookup.sumByGroup (s.column i) s.batch).toList).map
      (·.getD j 0) =
        ss.map fun s => if j = 0 then 0 else s.lookup.groupSum (s.column i) j.toUInt32 := by
    rw [List.map_map]
    exact List.map_congr_left fun s hs => (hb s hs).getD_sumByGroup _ _ hj32
  rw [hsum]
  by_cases h0 : j = 0
  · simp only [h0, if_true, sum_map_zero]
  · simp only [h0, if_false]

/-- The pool has room for the buffers of all the sessions' sums at once. -/
def RoomForSums (m : MultiSession) : Prop :=
  m.pool.used.toNat + (m.shards.map fun s => (8 * s.lookup.numGroups.toUInt64).toNat).sum ≤
    m.pool.reservation.ceiling.toNat

/-- Room for every buffer at once is room for each alone. -/
theorem RoomForSums.roomToSum (h : m.RoomForSums) :
    ∀ s ∈ m.shards, ShardSession.RoomToSum m.pool s := by
  intro s hs
  have hle := List.le_sum_of_mem
    (List.mem_map_of_mem (f := fun s : ShardSession => (8 * s.lookup.numGroups.toUInt64).toNat) hs)
  unfold RoomForSums at h
  unfold ShardSession.RoomToSum
  omega

/-- With room for every session's buffer, each session answers its sums, which add up place by
place to the group totals, and nothing changes. -/
theorem serve_groupStats_of_room (hopen : m.closed = false)
    (hready : ∀ s ∈ m.shards, s.closed = false ∧ s.lookup.Bounded ∧ i < s.stats.depth)
    (hroom : ∀ s ∈ m.shards, ShardSession.RoomToSum m.pool s) :
    (serve (.groupStats i)).apply m = (.ok (.values (ShardSession.groupTotals m.shards i)), m) := by
  have hrun := runShards_of_keeps (ShardSession.groupStats_keeps_state i) m.shards m.pool
  have hanswers : (m.shards.map fun s => ((ShardSession.groupStats i).apply (s, m.pool)).1) =
      (m.shards.map fun s => (s.lookup.sumByGroup (s.column i) s.batch).toList).map .ok := by
    rw [List.map_map]
    refine List.map_congr_left fun s hs => ?_
    obtain ⟨hc, -, hi⟩ := hready s hs
    rw [ShardSession.groupStats_apply hc hi (hroom s hs)]
    rfl
  rw [hanswers] at hrun
  have hexec : (execute (ShardSession.groupStats i)).apply m = (.ok _, _) :=
    execute_of_runShards hopen hrun
  simp only [serve, Step.apply_bind, hexec, Step.apply_pure]
  rw [sumPlaces_sums m.shards fun s hs => (hready s hs).2.1]

/-- Without room for some session's buffer, the request fails out of memory and closes the
multi-session: every session that fails does so out of memory, and that one does. -/
theorem serve_groupStats_of_full (hopen : m.closed = false)
    (hready : ∀ s ∈ m.shards, s.closed = false ∧ s.lookup.Bounded ∧ i < s.stats.depth)
    (hfull : ¬ ∀ s ∈ m.shards, ShardSession.RoomToSum m.pool s) :
    ∃ e m', (serve (.groupStats i)).apply m = (.error e, m') ∧ e.isOutOfMemory = true ∧
      m'.closed = true := by
  have hrun := runShards_of_keeps (ShardSession.groupStats_keeps_state i) m.shards m.pool
  push Not at hfull
  obtain ⟨s, hs, hno⟩ := hfull
  have hoom : ∀ e, .error e ∈ m.shards.map (fun s => ((ShardSession.groupStats i).apply
      (s, m.pool)).1) → e.isOutOfMemory = true := by
    intro e he
    obtain ⟨s', hs', he'⟩ := List.mem_map.mp he
    obtain ⟨hc, -, hi⟩ := hready s' hs'
    by_cases hr : ShardSession.RoomToSum m.pool s'
    · rw [ShardSession.groupStats_apply hc hi hr] at he'
      cases he'
    · obtain ⟨e', he'', hoom'⟩ := ShardSession.groupStats_apply_of_full hc hi hr
      rw [he''] at he'
      cases he'
      exact hoom'
  have hfails : ∃ e, .error e ∈ m.shards.map (fun s => ((ShardSession.groupStats i).apply
      (s, m.pool)).1) := by
    obtain ⟨hc, -, hi⟩ := hready s hs
    obtain ⟨e, he, -⟩ := ShardSession.groupStats_apply_of_full hc hi hno
    exact ⟨e, List.mem_map.mpr ⟨s, hs, by rw [he]⟩⟩
  obtain ⟨e, hfirst, he⟩ := firstError_of_mem hoom hfails
  have hexec : ∃ m', (execute (ShardSession.groupStats i)).apply m = (.error e, m') ∧
      m'.closed = true :=
    execute_of_firstError hopen (by rw [hrun]; exact hfirst)
  obtain ⟨m', hm', hclosed⟩ := hexec
  exact ⟨e, m', by simp only [serve, Step.apply_bind, hm'], he, hclosed⟩

/-- Group stats sum over shards and documents, whatever the batch size: with room for every
session's buffer at once the request answers the group totals and changes nothing; without room
for some session's buffer alone it fails out of memory and closes the multi-session. -/
theorem groupStats_sums (hopen : m.closed = false)
    (hready : ∀ s ∈ m.shards, s.closed = false ∧ s.lookup.Bounded ∧ i < s.stats.depth) :
    (m.RoomForSums →
        (serve (.groupStats i)).apply m =
          (.ok (.values (ShardSession.groupTotals m.shards i)), m)) ∧
      ((¬ ∀ s ∈ m.shards, ShardSession.RoomToSum m.pool s) →
        ∃ e m', (serve (.groupStats i)).apply m = (.error e, m') ∧ e.isOutOfMemory = true ∧
          m'.closed = true) ∧
      ∀ (l : Lookup) (c : StatColumn) (batch : Nat),
        (l.sumByGroup c batch).toList =
          (List.range l.numGroups.toNat).map fun j => if j = 0 then 0 else l.groupSum c j.toUInt32 :=
  ⟨fun hroom => serve_groupStats_of_room hopen hready hroom.roomToSum,
    serve_groupStats_of_full hopen hready, fun l c batch => l.sumByGroup_toList c batch⟩

/-- Two shards with a pushed stat and room in the pool: group 1 holds documents 0 and 2 of the
first shard, group 2 its document 1 and document 0 of the second; document 1 of the second lies
in group 0 and is left out. -/
theorem groupStats_over_two_shards :
    let a : ShardSession :=
      { shard := { numDocs := 3 }, lookup := ⟨#[1, 2, 1], 3⟩,
        stats := ⟨[("x", ⟨#[10, 20, 30]⟩)]⟩, lookupClaim := 12, batch := 2 }
    let b : ShardSession :=
      { shard := { numDocs := 2 }, lookup := ⟨#[2, 0], 3⟩,
        stats := ⟨[("x", ⟨#[5, 7]⟩)]⟩, lookupClaim := 8, batch := 1 }
    let m : MultiSession :=
      { shards := [a, b], pool := Memory.Pool.create 1000, prime := 0, numSplits := 0,
        claimed := 0 }
    (serve (.groupStats 0)).apply m = (.ok (.values [0, 40, 25]), m) := by
  intro a b m
  have hready : ∀ s ∈ m.shards, s.closed = false ∧ s.lookup.Bounded ∧ 0 < s.stats.depth := by
    intro s hs
    simp only [m, List.mem_cons, List.not_mem_nil, or_false] at hs
    rcases hs with rfl | rfl
    · exact ⟨rfl, ⟨by simp [a], by simp [a]⟩, by simp [a, StatStack.depth]⟩
    · exact ⟨rfl, ⟨by simp [b], by simp [b]⟩, by simp [b, StatStack.depth]⟩
  have hroom : m.RoomForSums := by
    simp [RoomForSums, a, b, m, Memory.Pool.create, Memory.Pool.used]
  have htotals : ShardSession.groupTotals m.shards 0 = [0, 40, 25] := by
    decide
  rw [← htotals]
  exact (groupStats_sums rfl hready).1 hroom

/-- One document of group 1 with a pushed stat, in a pool of 12 bytes all in use: the sums need
16 bytes, so the request fails out of memory and closes the multi-session. -/
theorem groupStats_fails_without_room :
    let s : ShardSession :=
      { shard := { numDocs := 1, intFields := [("f", [(.int 7, [0])])] }, lookup := ⟨#[1], 2⟩,
        stats := ⟨[("count()", ⟨#[1]⟩)]⟩, statClaims := [8], lookupClaim := 4, batch := 4096 }
    let m : MultiSession :=
      { shards := [s], pool := { reservation := { ceiling := 12, used := 12 }, context := ⟨12⟩ },
        prime := 0, numSplits := 0, claimed := 0 }
    ((serve (.groupStats 0)).apply m).1 = .error (.outOfMemory 16 0) ∧
      ((serve (.groupStats 0)).apply m).2.closed = true :=
  ⟨rfl, rfl⟩

end MultiSession

end GroupStats
