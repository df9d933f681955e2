import GroupStats.Proofs.Shard.Stream
import GroupStats.Proofs.Group.Bucketing
import GroupStats.Proofs.Session.Accounting

/-!
# Distinct terms by group

The number of distinct terms of a field that some document of a group holds, in any shard
(`distinctIn`), listed for every group below the largest bound of the shards' assignments and
at least one, with group 0 counted as none (`distinctCounts`).

A shard session counts them through its own assignment: for each term it tracks the groups of
its documents, batch by batch, and adds one for each group seen (`distinctByGroup_toList`). A
multi-session counts them on the merged stream of its shards: each term of the merge lists, once
each, the groups any shard gives it, and adds one for each (`merged_counts`). Both count a term
once per group, however many of its documents and shards lie in the group, and never count
group 0. Both count the same, `distinctCounts`, over sessions that are open, whose assignments
are bounded, whose field lists each term once and whose pool has room for the streams and
their merge (`distinct_counts_terms_once`).
-/

namespace GroupStats

/-! ### Counting by increments -/

/-- Adding one at the slot each element names adds to a slot the number of elements naming
it. -/
theorem getElem?_foldl_modify_succ {β : Type} (key : β → Nat) (xs : List β)
    (counts : Array Int64) (j : Nat) :
    (xs.foldl (fun c x => c.modify (key x) (· + 1)) counts)[j]? =
      counts[j]?.map (· + Int64.ofNat (xs.countP fun x => key x = j)) := by
  induction xs generalizing counts with
  | nil =>
    rw [List.foldl_nil]
    cases counts[j]? <;> simp
  | cons x xs ih =>
    rw [List.foldl_cons, ih, Array.getElem?_modify, List.countP_cons]
    by_cases hx : key x = j
    · cases h : counts[j]? <;> simp [hx, Int64.ofNat_add, Int64.add_assoc, Int64.add_comm]
    · cases h : counts[j]? <;> simp [hx]

/-- Adding one at slots keeps the number of slots. -/
theorem size_foldl_modify {β : Type} (key : β → Nat) (xs : List β) (c : Array Int64) :
    (xs.foldl (fun c x => c.modify (key x) (· + 1)) c).size = c.size := by
  induction xs generalizing c with
  | nil => rfl
  | cons x xs ih => rw [List.foldl_cons, ih, Array.size_modify]

/-- An array of `N` slots whose slot `i` holds `v i` lists `v` over the numbers below `N`. -/
theorem toList_eq_map_range {α : Type} {a : Array α} {N : Nat} {v : Nat → α}
    (hsize : a.size = N) (h : ∀ i < N, a[i]? = some (v i)) :
    a.toList = (List.range N).map v := by
  apply List.ext_getElem?
  intro i
  rw [Array.getElem?_toList, List.getElem?_map]
  by_cases hi : i < N
  · rw [h i hi, List.getElem?_range hi]
    rfl
  · rw [List.getElem?_eq_none (by rw [List.length_range]; omega),
      Array.getElem?_eq_none (by omega)]
    rfl

/-- In a strictly ascending list of groups, a group is counted once when it is there. -/
theorem countP_toNat_of_ascending {gs : List GroupId} (h : gs.Pairwise (· < ·)) (g : GroupId) :
    gs.countP (fun x => x.toNat = g.toNat) = if g ∈ gs then 1 else 0 := by
  have hnd : gs.Nodup := h.imp fun hlt he => by
    rw [he] at hlt
    exact UInt32.lt_irrefl _ hlt
  have hcount : gs.countP (fun x => x.toNat = g.toNat) = gs.count g :=
    List.countP_congr fun x _ => by simp [UInt32.toNat_inj]
  rw [hcount]
  split
  · exact List.count_eq_one_of_mem hnd ‹_›
  · exact List.count_eq_zero.mpr ‹_›

/-- Counting over the parts of a list, each of which holds one match or none, counts the parts
that hold one. -/
theorem countP_flatMap_of_single {α β : Type} {p : β → Bool} {G : α → List β}
    {q : α → Bool} (xs : List α) (h : ∀ x ∈ xs, (G x).countP p = if q x then 1 else 0) :
    (xs.flatMap G).countP p = xs.countP q := by
  induction xs with
  | nil => rfl
  | cons x xs ih =>
    rw [List.flatMap_cons, List.countP_append, ih fun y hy => h y (List.mem_cons_of_mem _ hy),
      h x List.mem_cons_self, List.countP_cons]
    split <;> omega

/-- Counting the members of a list with distinct keys by a test of their keys counts the keys
that pass it. -/
theorem countP_eq_card_filter {β γ : Type} [DecidableEq γ] (key : β → γ) {xs : List β}
    (hnd : (xs.map key).Nodup) (P : γ → Prop) [DecidablePred P] :
    xs.countP (fun x => P (key x)) = ((xs.map key).toFinset.filter P).card := by
  calc xs.countP (fun x => P (key x))
      = (xs.map key).countP (fun y => P y) := by rw [List.countP_map]; rfl
    _ = ((xs.map key).filter fun y => P y).length := List.countP_eq_length_filter
    _ = ((xs.map key).filter fun y => P y).toFinset.card :=
        (List.toFinset_card_of_nodup (hnd.filter _)).symm
    _ = ((xs.map key).toFinset.filter P).card := by rw [List.toFinset_filter]; simp

/-- The element of a list with distinct keys found by its key is that element. -/
theorem find?_key_of_nodup {β γ : Type} [DecidableEq γ] (key : β → γ) {xs : List β}
    (hnd : (xs.map key).Nodup) {x : β} (hx : x ∈ xs) : xs.find? (key · = key x) = some x := by
  obtain ⟨y, hy⟩ := Option.isSome_iff_exists.mp
    ((List.find?_isSome (p := fun y => decide (key y = key x))).mpr ⟨x, hx, decide_eq_true rfl⟩)
  have hky : key y = key x := by simpa using List.find?_some hy
  rw [hy, List.inj_on_of_nodup_map hnd (List.mem_of_find?_eq_some hy) hx hky]

/-- Below `2 ^ 32`, only 0 names group 0. -/
theorem toUInt32_eq_noGroup_iff {i : Nat} (h : i < 2 ^ 32) : i.toUInt32 = noGroup ↔ i = 0 := by
  constructor
  · intro he
    simpa [noGroup, UInt32.toNat_ofNat_of_lt' h] using congrArg UInt32.toNat he
  · rintro rfl
    rfl

/-! ### What is counted -/

namespace Shard

/-- Some document holding the term `t` in the field `f` lies in group `g` of the assignment
`l`. -/
def HoldsIn (s : Shard) (l : Lookup) (f : Field) (t : Term) (g : GroupId) : Prop :=
  ∃ p ∈ s.lists f, p.1 = t ∧ ∃ d ∈ p.2, l.get d = g

instance (s : Shard) (l : Lookup) (f : Field) (t : Term) (g : GroupId) :
    Decidable (s.HoldsIn l f t g) :=
  inferInstanceAs (Decidable (∃ p ∈ s.lists f, p.1 = t ∧ ∃ d ∈ p.2, l.get d = g))

/-- Where a field lists each term once, a listed term lies in a group when one of its own
documents does. -/
theorem holdsIn_iff {s : Shard} {f : Field} (hnd : ((s.lists f).map (·.1)).Nodup)
    {p : Term × List DocId} (hp : p ∈ s.lists f) (l : Lookup) (g : GroupId) :
    s.HoldsIn l f p.1 g ↔ ∃ d ∈ p.2, l.get d = g := by
  constructor
  · rintro ⟨q, hq, hqp, hd⟩
    rw [← List.inj_on_of_nodup_map hnd hq hp hqp]
    exact hd
  · exact fun hd => ⟨p, hp, rfl, hd⟩

end Shard

namespace ShardSession

/-- The terms of a field in any of the shard sessions. -/
def fieldTerms (ss : List ShardSession) (f : Field) : Finset Term :=
  (ss.flatMap fun s => (s.shard.lists f).map (·.1)).toFinset

/-- The number of distinct terms of a field that some document of group `g`, in any of the
shard sessions, holds. -/
def distinctIn (ss : List ShardSession) (f : Field) (g : GroupId) : Nat :=
  ((fieldTerms ss f).filter fun t => ∃ s ∈ ss, s.shard.HoldsIn s.lookup f t g).card

/-- The number of groups counted: the largest bound of the sessions' assignments, and one at
least. -/
def groupBound (ss : List ShardSession) : Nat :=
  max 1 ((ss.map fun s => s.lookup.numGroups.toNat).foldr max 0)

/-- For every group below the bound, the distinct terms of a field its documents hold; none for
group 0. -/
def distinctCounts (ss : List ShardSession) (f : Field) : List Int64 :=
  (List.range (groupBound ss)).map fun i =>
    if i = 0 then 0 else Int64.ofNat (distinctIn ss f i.toUInt32)

/-- A bound at least one, at least every session's bound and equal to one of them or to one is
the bound counted. -/
theorem groupBound_eq {ss : List ShardSession} {N : Nat} (h1 : 1 ≤ N)
    (hle : ∀ s ∈ ss, s.lookup.numGroups.toNat ≤ N)
    (hN : N = 1 ∨ ∃ s ∈ ss, s.lookup.numGroups.toNat = N) : groupBound ss = N := by
  refine le_antisymm (max_le h1 (List.max_le_of_forall_le _ _ ?_)) ?_
  · intro x hx
    obtain ⟨s, hs, rfl⟩ := List.mem_map.mp hx
    exact hle s hs
  · rcases hN with rfl | ⟨s, hs, rfl⟩
    · exact le_max_left ..
    · exact le_max_of_le_right (List.le_max_of_le (List.mem_map_of_mem hs) le_rfl)

/-- Counted on one session with a bounded assignment, the groups are those of its bound. -/
theorem groupBound_single {s : ShardSession} (hb : s.lookup.Bounded) :
    groupBound [s] = s.lookup.numGroups.toNat :=
  groupBound_eq (by simpa using UInt32.le_iff_toNat_le.mp hb.one_le) (by simp) (by simp)

end ShardSession

/-! ### The count of one shard -/

namespace Lookup

variable (l : Lookup)

/-- A term's groups are the groups other than 0 of its documents. -/
theorem mem_termGroups {docs : List DocId} {g : GroupId} :
    g ∈ l.termGroups docs ↔ g ≠ noGroup ∧ ∃ d ∈ docs, l.get d = g := by
  rw [termGroups, List.mem_mergeSort, Merge.mem_distinct, List.mem_filter, List.mem_map,
    decide_eq_true_iff, and_comm]

/-- A term counts once in each of its groups. -/
theorem countP_termGroups (docs : List DocId) (g : GroupId) :
    (l.termGroups docs).countP (fun x => x.toNat = g.toNat) =
      if g ≠ noGroup ∧ ∃ d ∈ docs, l.get d = g then 1 else 0 := by
  rw [countP_toNat_of_ascending (l.termGroups_ascending docs)]
  simp only [mem_termGroups]

/-- Read batch by batch into an empty tracker, a term's documents leave its groups. -/
theorem sorted_seen {F : SeenGroups → List DocId → SeenGroups}
    (hF : ∀ S part, F S part =
      part.foldl (fun S d => if l.get d = noGroup then S else S.insert (l.get d)) S)
    (batch : Nat) (docs : List DocId) (c : Nat) :
    ((chunks batch docs).foldl F (SeenGroups.empty c)).sorted = l.termGroups docs := by
  have hfold : (chunks batch docs).foldl F (SeenGroups.empty c) =
      ((docs.map l.get).filter (· ≠ noGroup)).foldl SeenGroups.insert (SeenGroups.empty c) := by
    rw [List.foldl_filter, List.foldl_map]
    conv_rhs => rw [← flatten_chunks batch docs]
    rw [List.foldl_flatten]
    congr 1
    funext S part
    rw [hF]
    congr 1
    funext S d
    by_cases h : l.get d = noGroup <;> simp [h]
  rw [hfold]
  exact (SeenGroups.foldl_insert_empty c _).2.2

/-- A shard's count adds one, for each term of the field, at the slot of each of its groups. -/
theorem distinctByGroup_eq (s : Shard) (batch : Nat) (f : Field) :
    l.distinctByGroup s batch f =
      ((s.lists f).flatMap fun p => l.termGroups p.2).foldl
        (fun c g => c.modify g.toNat (· + 1)) (Array.replicate l.numGroups.toNat 0) := by
  rw [List.foldl_flatMap]
  unfold distinctByGroup
  dsimp only
  congr 1
  funext c p
  obtain ⟨t, docs⟩ := p
  dsimp only
  rw [l.sorted_seen (fun S part => rfl)]

/-- The slot of a group in a shard's count holds the terms of the field that one of its
documents holds, for each group below the bound. -/
theorem getElem?_distinctByGroup (s : Shard) (batch : Nat) (f : Field) (g : GroupId) :
    (l.distinctByGroup s batch f)[g.toNat]? =
      if g.toNat < l.numGroups.toNat then
        some (Int64.ofNat
          ((s.lists f).countP fun p => g ≠ noGroup ∧ ∃ d ∈ p.2, l.get d = g))
      else none := by
  rw [distinctByGroup_eq, getElem?_foldl_modify_succ,
    countP_flatMap_of_single (q := fun p => decide (g ≠ noGroup ∧ ∃ d ∈ p.2, l.get d = g)) _
      fun p _ => by simp only [l.countP_termGroups, decide_eq_true_eq],
    Array.getElem?_replicate]
  split <;> simp

/-- A shard's count lists, for every group below the bound, the terms of the field that one of
its documents holds. -/
theorem distinctByGroup_toList (s : Shard) (batch : Nat) (f : Field) :
    (l.distinctByGroup s batch f).toList =
      (List.range l.numGroups.toNat).map fun i => Int64.ofNat ((s.lists f).countP fun p =>
        i.toUInt32 ≠ noGroup ∧ ∃ d ∈ p.2, l.get d = i.toUInt32) := by
  refine toList_eq_map_range (by rw [distinctByGroup_eq, size_foldl_modify, Array.size_replicate])
    fun i hi => ?_
  have hslot := l.getElem?_distinctByGroup s batch f i.toUInt32
  rwa [UInt32.toNat_ofNat_of_lt' (Nat.lt_trans hi l.numGroups.toNat_lt), if_pos hi] at hslot

/-- A term has a row for a group exactly when the group is one of its groups. -/
theorem exists_termRows_group (columns : List StatColumn) (docs : List DocId) (g : GroupId) :
    (∃ r ∈ l.termRows columns docs, r.group = g) ↔ g ∈ l.termGroups docs := by
  simp [termRows]

end Lookup

namespace Memory.Pool

variable {p : Pool} {bytes : UInt64}

/-- A claim that fits under the ceiling goes through and adds its bytes to the reservation. -/
theorem claim_of_room (h : p.used.toNat + bytes.toNat ≤ p.reservation.ceiling.toNat) :
    ∃ p', p.claim bytes = .ok p' ∧ p'.used.toNat = p.used.toNat + bytes.toNat ∧
      p'.reservation.ceiling = p.reservation.ceiling := by
  have hr := Reservation.claim_eq_ok.mpr ⟨h, rfl⟩
  have hc : p.claim bytes = .ok ⟨{ p.reservation with used := p.reservation.used + bytes },
      ⟨p.context.used + bytes⟩⟩ := by
    simp only [Pool.claim, hr]
    rfl
  refine ⟨_, hc, ?_, rfl⟩
  have hceil := p.reservation.ceiling.toNat_lt
  simp only [used] at h ⊢
  rw [UInt64.toNat_add, Nat.mod_eq_of_lt (by omega)]

end Memory.Pool

/-! ### The count of a shard session -/

namespace ShardSession

variable {s : ShardSession} {p : Memory.Pool} {f : Field}

/-- An open session with room in its pool for the count's buffers answers its count of a field,
and is left as it was. -/
theorem distinct_apply (f : Field) (hc : s.closed = false)
    (hroom : p.used.toNat + (ShardStream.memoryFor s.lookup.numGroups 1).toNat ≤
      p.reservation.ceiling.toNat) :
    (distinct f).apply (s, p) =
      (.ok (s.lookup.distinctByGroup s.shard s.batch f).toList, (s, p)) := by
  obtain ⟨p', hclaim, -⟩ := Memory.Pool.claim_of_room hroom
  rw [distinct, whenOpen_apply, if_neg (by simp [hc])]
  simp [Memory.Pool.during, hclaim]

/-- Where a field lists each term once, a group other than 0 counts, on one session, the terms
of the field that one of its documents holds. -/
theorem countP_eq_distinctIn (hnd : ((s.shard.lists f).map (·.1)).Nodup) {g : GroupId}
    (hg : g ≠ noGroup) :
    (s.shard.lists f).countP (fun p => g ≠ noGroup ∧ ∃ d ∈ p.2, s.lookup.get d = g) =
      distinctIn [s] f g := by
  have hterms : fieldTerms [s] f = ((s.shard.lists f).map (·.1)).toFinset := by
    simp [fieldTerms]
  rw [distinctIn, hterms, ← countP_eq_card_filter Prod.fst hnd]
  refine List.countP_congr fun p hp => ?_
  simp [hg, Shard.holdsIn_iff hnd hp]

/-- Over a bounded assignment in which the field lists each term once, a session's count of the
field is the distinct terms of each group. -/
theorem distinctByGroup_eq_distinctCounts (hb : s.lookup.Bounded)
    (hnd : ((s.shard.lists f).map (·.1)).Nodup) :
    (s.lookup.distinctByGroup s.shard s.batch f).toList = distinctCounts [s] f := by
  rw [Lookup.distinctByGroup_toList, distinctCounts, groupBound_single hb]
  refine List.map_congr_left fun i hi => ?_
  have hi' : i < 2 ^ 32 := Nat.lt_trans (List.mem_range.mp hi) s.lookup.numGroups.toNat_lt
  by_cases h0 : i = 0
  · subst h0
    simp [noGroup]
  · rw [if_neg h0, countP_eq_distinctIn hnd (mt (toUInt32_eq_noGroup_iff hi').mp h0)]

end ShardSession

/-! ### The streams of the shards -/

namespace Shard

variable {s : Shard} {f : Field}

/-- A field's source lists the field's terms with their documents, sorted by term. -/
theorem terms_perm (s : Shard) (f : Field) :
    (s.terms f).entries.Perm ((s.lists f).map fun q => ⟨q.1, q.2.length.toUInt64, q.2⟩) :=
  List.mergeSort_perm _ _

theorem mem_terms_entries {p : Posting} :
    p ∈ (s.terms f).entries ↔
      ∃ q ∈ s.lists f, (⟨q.1, q.2.length.toUInt64, q.2⟩ : Posting) = p :=
  (s.terms_perm f).mem_iff.trans List.mem_map

theorem nodup_terms_entries (hnd : ((s.lists f).map (·.1)).Nodup) :
    ((s.terms f).entries.map (·.term)).Nodup :=
  ((s.terms_perm f).map _).nodup_iff.mpr (by simpa [Function.comp_def] using hnd)

/-- Where a field lists each term once, its source strictly ascends. -/
theorem ascending_terms (hnd : ((s.lists f).map (·.1)).Nodup) :
    (s.terms f).entries.Pairwise fun a b => a.term < b.term := by
  refine ((Postings.ascending_ofLists (s.lists f)).and
    (List.pairwise_map.mp (nodup_terms_entries hnd))).imp ?_
  rintro a b ⟨hle, hab⟩
  have hgt := Term.le_eq_true_iff.mp hle
  have heq : Term.compare a.term b.term ≠ .eq := fun h => hab (Term.compare_eq_iff.mp h)
  show Term.compare a.term b.term = .lt
  cases h : Term.compare a.term b.term <;> simp_all

end Shard

namespace ShardStream

/-- A stream has no more groups left in its term than its budget. -/
theorem Shows.groups_le {c : ShardStream} {u : Replay.View} (h : c.Shows u) :
    u.groups.length ≤ Cursor.budget c := by
  rw [← h.2]
  show ((c.groups.drop c.groupPos).map c.row).length ≤ c.budget
  simp only [List.length_map, List.length_drop, budget]
  omega

/-- A fresh stream of a shard over a bounded assignment stands at the start of the shard's
stream, with a budget above every level of it and its groups below the assignment's bound,
whatever bytes it records as claimed. -/
theorem start_create {l : Lookup} (hb : l.Bounded) (shard : Shard) (columns : List StatColumn)
    (fields : List Field) (batch : Nat) (claimed : UInt64) :
    (create shard l columns fields batch claimed).Shows
        (Replay.View.start (shard.ftgs l columns fields)) ∧
      (shard.ftgs l columns fields).Bounded
        (Cursor.budget (create shard l columns fields batch claimed)) ∧
      (Replay.View.start (shard.ftgs l columns fields)).Below
        (Cursor.numGroups (create shard l columns fields batch claimed)) := by
  refine ⟨⟨⟨SeenGroups.valid_empty _, fun r hr => nomatch hr⟩, rfl⟩,
    ShardStream.bounded_reference _, by simp [Replay.View.start], by simp [Replay.View.start], ?_⟩
  intro F hF t ht r hr
  obtain ⟨f', -, rfl⟩ := List.mem_map.mp hF
  obtain ⟨q, -, rfl⟩ := List.mem_map.mp ht
  obtain ⟨g, hg, rfl⟩ := List.mem_map.mp hr
  obtain ⟨hg0, d, -, rfl⟩ := l.mem_termGroups.mp hg
  exact hb.get_lt hg0

end ShardStream

namespace ShardSession

variable {s : ShardSession} {f : Field}

/-- The stream a session's shard gives over fields, under the session's assignment and stats. -/
def ftgs (s : ShardSession) (fields : List Field) : Ftgs :=
  s.shard.ftgs s.lookup s.stats.columns fields

/-- The bytes a session's stream claims: a copy of the assignment and per-group buffers. -/
def streamBytes (s : ShardSession) : UInt64 :=
  lookupBytes s.lookup.size + ShardStream.memoryFor s.lookup.numGroups s.stats.depth

/-- The stream a session opens over fields. -/
def openedStream (s : ShardSession) (fields : List Field) : ShardStream :=
  ShardStream.create s.shard s.lookup s.stats.columns fields s.batch s.streamBytes

/-- The stream a session opens over a bounded assignment stands at the start of the session's
stream, with a budget above every level of it and its groups below the assignment's bound. -/
theorem openedStream_start (hb : s.lookup.Bounded) (fields : List Field) :
    (s.openedStream fields).Shows (Replay.View.start (s.ftgs fields)) ∧
      (s.ftgs fields).Bounded (Cursor.budget (s.openedStream fields)) ∧
      (Replay.View.start (s.ftgs fields)).Below (Cursor.numGroups (s.openedStream fields)) :=
  ShardStream.start_create hb s.shard s.stats.columns fields s.batch s.streamBytes

/-- A session's stream visits the fields asked for, in order. -/
theorem map_field_ftgs (s : ShardSession) (fields : List Field) :
    (s.ftgs fields).map (·.field) = fields := by
  simp [ftgs, Shard.ftgs, Function.comp_def]

/-- The streams of sessions visit the fields asked for, all in the same order. -/
theorem aligned_ftgs (ss : List ShardSession) (fields : List Field) :
    Merge.Aligned (ss.map (·.ftgs fields)) := by
  intro u hu v hv
  obtain ⟨s, -, rfl⟩ := List.mem_map.mp hu
  obtain ⟨s', -, rfl⟩ := List.mem_map.mp hv
  rw [map_field_ftgs, map_field_ftgs]

/-- Every row of a session's stream carries one value for each stat of the session. -/
theorem stats_length_ftgs (s : ShardSession) (fields : List Field) :
    ∀ F ∈ s.ftgs fields, ∀ b ∈ F.terms, ∀ r ∈ b.groups,
      r.stats.length = s.stats.depth := by
  intro F hF b hb r hr
  obtain ⟨f', -, rfl⟩ := List.mem_map.mp hF
  obtain ⟨q, -, rfl⟩ := List.mem_map.mp hb
  obtain ⟨g, -, rfl⟩ := List.mem_map.mp hr
  simp [StatStack.columns, StatStack.depth]

/-- Where the field lists each term once, a session's stream of it strictly ascends. -/
theorem ascending_ftgs (hnd : ((s.shard.lists f).map (·.1)).Nodup) :
    ∀ F ∈ s.ftgs [f], Merge.Ascending F.terms := by
  intro F hF
  rw [ftgs, Shard.ftgs, List.map_singleton, List.mem_singleton] at hF
  subst hF
  exact List.pairwise_map.mpr (Shard.ascending_terms hnd)

theorem termsAt_ftgs (s : ShardSession) (f : Field) :
    Merge.termsAt 0 (s.ftgs [f]) =
      (s.shard.terms f).entries.map (s.lookup.termBlock s.stats.columns) := rfl

/-- The block a session's stream holds for a term has a row for group `g` exactly when `g` is
not group 0 and some document of the term lies in it. -/
theorem find?_groups_iff (hnd : ((s.shard.lists f).map (·.1)).Nodup) (t : Term) (g : GroupId) :
    (∃ b, (Merge.termsAt 0 (s.ftgs [f])).find? (·.term = t) = some b ∧
        ∃ r ∈ b.groups, r.group = g) ↔
      g ≠ noGroup ∧ s.shard.HoldsIn s.lookup f t g := by
  rw [termsAt_ftgs]
  constructor
  · rintro ⟨b, hb, r, hr, rfl⟩
    have hbt : b.term = t := by simpa using List.find?_some hb
    obtain ⟨p, hp, rfl⟩ := List.mem_map.mp (List.mem_of_find?_eq_some hb)
    obtain ⟨q, hq, rfl⟩ := Shard.mem_terms_entries.mp hp
    obtain ⟨hg0, d, hd, hget⟩ :=
      s.lookup.mem_termGroups.mp ((s.lookup.exists_termRows_group _ _ _).mp ⟨r, hr, rfl⟩)
    exact ⟨hg0, q, hq, hbt, d, hd, hget⟩
  · rintro ⟨hg0, q, hq, rfl, d, hd, rfl⟩
    have hmem := List.mem_map_of_mem (f := s.lookup.termBlock s.stats.columns)
      (Shard.mem_terms_entries.mpr ⟨q, hq, rfl⟩)
    have hnd' : (((s.shard.terms f).entries.map (s.lookup.termBlock s.stats.columns)).map
        (·.term)).Nodup := by
      rw [List.map_map]
      exact Shard.nodup_terms_entries hnd
    exact ⟨_, find?_key_of_nodup (·.term) hnd' hmem, (s.lookup.exists_termRows_group _ _ _).mpr
      (s.lookup.mem_termGroups.mpr ⟨hg0, d, hd, rfl⟩)⟩

end ShardSession

/-! ### The count of the merged stream -/

namespace ShardSession

variable {ss : List ShardSession} {f : Field} {n : Nat} {W : Ftgs}

/-- Some session's stream holds a block of the term with a row for `g` exactly when `g` is not
group 0 and some document of the term, in some session, lies in it. -/
theorem exists_hit_iff (hnd : ∀ s ∈ ss, ((s.shard.lists f).map (·.1)).Nodup) (t : Term)
    (g : GroupId) :
    (∃ b ∈ ((ss.map (·.ftgs [f])).map (Merge.termsAt 0)).filterMap (·.find? (·.term = t)),
        ∃ r ∈ b.groups, r.group = g) ↔
      g ≠ noGroup ∧ ∃ s ∈ ss, s.shard.HoldsIn s.lookup f t g := by
  simp only [List.map_map, List.mem_filterMap, List.mem_map, Function.comp_apply]
  constructor
  · rintro ⟨b, ⟨_, ⟨s, hs, rfl⟩, hb⟩, hr⟩
    obtain ⟨hg0, hholds⟩ := (find?_groups_iff (hnd s hs) t g).mp ⟨b, hb, hr⟩
    exact ⟨hg0, s, hs, hholds⟩
  · rintro ⟨hg0, s, hs, hholds⟩
    obtain ⟨b, hb, hr⟩ := (find?_groups_iff (hnd s hs) t g).mpr ⟨hg0, hholds⟩
    exact ⟨b, ⟨_, ⟨s, hs, rfl⟩, hb⟩, hr⟩

/-- A term is in some session's stream of a field exactly when one of the sessions lists it. -/
theorem exists_termsAt_iff (t : Term) :
    (∃ v ∈ ss.map (·.ftgs [f]), ∃ b ∈ Merge.termsAt 0 v, b.term = t) ↔
      t ∈ fieldTerms ss f := by
  simp only [fieldTerms, List.mem_toFinset, List.mem_flatMap, List.mem_map]
  constructor
  · rintro ⟨_, ⟨s, hs, rfl⟩, b, hb, rfl⟩
    rw [termsAt_ftgs] at hb
    obtain ⟨p, hp, rfl⟩ := List.mem_map.mp hb
    obtain ⟨q, hq, rfl⟩ := Shard.mem_terms_entries.mp hp
    exact ⟨s, hs, q, hq, rfl⟩
  · rintro ⟨s, hs, q, hq, rfl⟩
    refine ⟨_, ⟨s, hs, rfl⟩,
      s.lookup.termBlock s.stats.columns ⟨q.1, q.2.length.toUInt64, q.2⟩, ?_, rfl⟩
    rw [termsAt_ftgs]
    exact List.mem_map_of_mem (Shard.mem_terms_entries.mpr ⟨q, hq, rfl⟩)

/-- On a stream summing the sessions' streams of one field, the terms with a row for group `g`
are, for `g` other than 0, the distinct terms of that group, and none for group 0. -/
theorem countP_merged (hne : ss ≠ []) (hnd : ∀ s ∈ ss, ((s.shard.lists f).map (·.1)).Nodup)
    (hW : Merge.SumsStreams n (ss.map (·.ftgs [f])) W) (g : GroupId) :
    ((W.flatMap (·.terms)).countP fun B => ∃ r ∈ B.groups, r.group = g) =
      if g = noGroup then 0 else distinctIn ss f g := by
  -- every session streams the one field, so the merge has one field
  obtain ⟨s₀, hs₀⟩ := List.exists_mem_of_ne_nil ss hne
  have hfields : W.map (·.field) = [f] := hW.fields _ (List.mem_map_of_mem hs₀)
  obtain ⟨F, rfl, -⟩ := List.map_eq_singleton_iff.mp hfields
  have hF : [F][0]? = some F := rfl
  -- a term of the merge has a row for `g` when some session's block of it does
  have hrow : ∀ B ∈ F.terms, (∃ r ∈ B.groups, r.group = g) ↔
      g ≠ noGroup ∧ ∃ s ∈ ss, s.shard.HoldsIn s.lookup f B.term g := fun B hB =>
    List.mem_map.symm.trans
      (((hW.sums 0 F hF B hB).mem_groups g).trans (exists_hit_iff hnd B.term g))
  rw [List.flatMap_singleton]
  by_cases hg : g = noGroup
  · rw [if_pos hg, List.countP_eq_zero]
    intro B hB h
    exact ((hrow B hB).mp (of_decide_eq_true h)).1 hg
  · rw [if_neg hg]
    have hnodup : (F.terms.map (·.term)).Nodup :=
      List.pairwise_map.mpr ((hW.ascending F (List.mem_singleton_self F)).imp fun h he => by
        rw [he, Term.compare_self] at h
        cases h)
    have hterms : (F.terms.map (·.term)).toFinset = fieldTerms ss f := by
      ext t
      rw [List.mem_toFinset, hW.mem_terms 0 F hF t, exists_termsAt_iff]
    rw [distinctIn, ← hterms, ← countP_eq_card_filter (fun B : TermBlock => B.term) hnodup]
    exact List.countP_congr fun B hB => by simp [hrow B hB, hg]

/-- Counted on a stream summing the sessions' streams of one field, from as many zeros as the
groups counted, each term adding one for each of its groups: the distinct terms of each
group. -/
theorem merged_counts (hne : ss ≠ []) (hnd : ∀ s ∈ ss, ((s.shard.lists f).map (·.1)).Nodup)
    (hW : Merge.SumsStreams n (ss.map (·.ftgs [f])) W) {N : UInt32}
    (hN : N.toNat = groupBound ss) :
    (W.foldl (fun c fb => fb.terms.foldl (fun c tb => tb.groups.foldl
      (fun c g => c.modify g.group.toNat (· + 1)) c) c) (Array.replicate N.toNat 0)).toList =
      distinctCounts ss f := by
  rw [← List.foldl_flatMap, ← List.foldl_flatMap, distinctCounts, ← hN]
  refine toList_eq_map_range (by rw [size_foldl_modify, Array.size_replicate]) fun i hi => ?_
  have hi' : i < 2 ^ 32 := Nat.lt_trans hi N.toNat_lt
  -- each term of the merge lists its groups once each, ascending
  have hsingle : ∀ B ∈ W.flatMap (·.terms),
      B.groups.countP (fun r => r.group.toNat = i.toUInt32.toNat) =
        if decide (∃ r ∈ B.groups, r.group = i.toUInt32) then 1 else 0 := by
    intro B hB
    obtain ⟨F, hF, hBF⟩ := List.mem_flatMap.mp hB
    obtain ⟨k, hk⟩ := List.mem_iff_getElem?.mp hF
    have hcount := countP_toNat_of_ascending (hW.sums k F hk B hBF).ascending i.toUInt32
    rw [List.countP_map] at hcount
    simpa only [List.mem_map, decide_eq_true_eq, Function.comp_def] using hcount
  have hslot := getElem?_foldl_modify_succ (fun r : GroupRow => r.group.toNat)
    ((W.flatMap (·.terms)).flatMap (·.groups)) (Array.replicate N.toNat 0) i.toUInt32.toNat
  rw [countP_flatMap_of_single _ hsingle, countP_merged hne hnd hW,
    UInt32.toNat_ofNat_of_lt' hi', Array.getElem?_replicate, if_pos hi] at hslot
  rw [hslot]
  by_cases h0 : i = 0
  · subst h0
    simp [noGroup]
  · simp [h0, toUInt32_eq_noGroup_iff hi']

end ShardSession

/-! ### Opening the merged stream -/

namespace ShardSession

variable {s : ShardSession} {p : Memory.Pool}

/-- An open session with room in its pool opens its stream over fields, claiming its bytes. -/
theorem stream_apply (fields : List Field) (hc : s.closed = false)
    (hroom : p.used.toNat + s.streamBytes.toNat ≤ p.reservation.ceiling.toNat) :
    ∃ p', (stream fields).apply (s, p) = (.ok (s.openedStream fields), (s, p')) ∧
      p'.used.toNat = p.used.toNat + s.streamBytes.toNat ∧
      p'.reservation.ceiling = p.reservation.ceiling := by
  obtain ⟨p', hclaim, hused, hceil⟩ := Memory.Pool.claim_of_room hroom
  refine ⟨p', ?_, hused, hceil⟩
  have hclaim' : p.claim (lookupBytes s.lookup.size +
      ShardStream.memoryFor s.lookup.numGroups s.stats.depth) = .ok p' := hclaim
  rw [stream, whenOpen_apply, if_neg (by simp [hc])]
  simp [hclaim', openedStream, streamBytes]

/-- Open sessions with room in their pool for all their streams open them, one after another,
claiming their bytes. -/
theorem runShards_stream (fields : List Field) :
    ∀ (ss : List ShardSession) (p : Memory.Pool), (∀ s ∈ ss, s.closed = false) →
      p.used.toNat + (ss.map fun s => s.streamBytes.toNat).sum ≤ p.reservation.ceiling.toNat →
      ∃ p', MultiSession.runShards (stream fields) ss p =
          (ss.map fun s => .ok (s.openedStream fields), ss, p') ∧
        p'.used.toNat = p.used.toNat + (ss.map fun s => s.streamBytes.toNat).sum ∧
        p'.reservation.ceiling = p.reservation.ceiling
  | [], p, _, _ => ⟨p, rfl, by simp, rfl⟩
  | s :: rest, p, hopen, hroom => by
    rw [List.map_cons, List.sum_cons] at hroom
    obtain ⟨p₁, hs, hused₁, hceil₁⟩ := stream_apply fields (hopen s List.mem_cons_self)
      (show p.used.toNat + s.streamBytes.toNat ≤ p.reservation.ceiling.toNat by omega)
    obtain ⟨p', hrest, hused', hceil'⟩ := runShards_stream fields rest p₁
      (fun s' hs' => hopen s' (List.mem_cons_of_mem _ hs')) (by rw [hused₁, hceil₁]; omega)
    refine ⟨p', ?_, by rw [hused', hused₁, List.map_cons, List.sum_cons]; omega,
      hceil'.trans hceil₁⟩
    simp only [MultiSession.runShards, hs, hrest, List.map_cons]

/-- A shard session ready to stream a field with `n` stats: open, over a bounded assignment, the
field listing each of its terms once. -/
structure StreamsField (f : Field) (n : Nat) (s : ShardSession) : Prop where
  isOpen : s.closed = false
  bounded : s.lookup.Bounded
  nodup : ((s.shard.lists f).map (·.1)).Nodup
  depth : s.stats.depth = n

end ShardSession

namespace MultiSession

variable {m : MultiSession}

theorem firstError_map_ok {α : Type} : ∀ vs : List α, firstError (vs.map Except.ok) = .ok vs
  | [] => rfl
  | v :: vs => by
    rw [List.map_cons, firstError, firstError_map_ok vs]
    rfl

/-- A step that answers on every shard of an open multi-session answers their values. -/
theorem execute_of_runShards {α : Type} {x : ShardSession.Op α} {drop : α → UInt64}
    {vs : List α} {ss : List ShardSession} {p : Memory.Pool} (hopen : m.closed = false)
    (hrun : runShards x m.shards m.pool = (vs.map .ok, ss, p)) :
    (execute x drop).apply m = (.ok vs, { m with shards := ss, pool := p }) := by
  unfold execute
  simp [hopen, hrun, firstError_map_ok]

/-- The pool of a multi-session has room for the streams of all its shard sessions and for the
merge of `n` stats over them. -/
def RoomToStream (m : MultiSession) (n : Nat) : Prop :=
  m.pool.used.toNat + (m.shards.map fun s => s.streamBytes.toNat).sum +
      (Merger.memoryFor (largest 1 (m.shards.map (·.lookup.numGroups))) n).toNat ≤
    m.pool.reservation.ceiling.toNat

/-- An open multi-session over open shard sessions of `n` stats each, with room in its pool,
opens the merge of its sessions' streams over fields. -/
theorem stream_apply {fields : List Field} {n : Nat} (hopen : m.closed = false)
    (hne : m.shards ≠ []) (hss : ∀ s ∈ m.shards, s.closed = false ∧ s.stats.depth = n)
    (hroom : m.RoomToStream n) {merger : Merger ShardStream}
    (hcreate : Merger.create (m.shards.map (·.openedStream fields)) = .ok merger) :
    ∃ b held m', (stream fields).apply m = (.ok ({ merger with claimed := b }, held), m') := by
  unfold RoomToStream at hroom
  obtain ⟨p₁, hrun, hused₁, hceil₁⟩ :=
    ShardSession.runShards_stream fields m.shards m.pool (fun s hs => (hss s hs).1) (by omega)
  have hng : (m.shards.map (·.openedStream fields)).map (·.lookup.numGroups) =
      m.shards.map (·.lookup.numGroups) := by
    simp [Function.comp_def, ShardSession.openedStream, ShardStream.create]
  have hns :
      ((m.shards.map (·.openedStream fields)).head?.map (·.columns.length)).getD 0 = n := by
    obtain ⟨s₀, rest, hcons⟩ := List.exists_cons_of_ne_nil hne
    have hdepth := (hss s₀ (hcons ▸ List.mem_cons_self)).2
    rw [hcons]
    simpa [ShardSession.openedStream, ShardStream.create, StatStack.columns, StatStack.depth]
      using hdepth
  have hroom₁ : p₁.used.toNat +
      (Merger.memoryFor (largest 1 (m.shards.map (·.lookup.numGroups))) n).toNat ≤
        p₁.reservation.ceiling.toNat := by
    rw [hused₁, hceil₁]
    omega
  obtain ⟨p₂, hclaim, -⟩ := Memory.Pool.claim_of_room hroom₁
  have hexec : (execute (ShardSession.stream fields) fun c : ShardStream => c.claimed).apply m =
      (.ok (m.shards.map (·.openedStream fields)), { m with shards := m.shards, pool := p₁ }) :=
    execute_of_runShards hopen (by rw [hrun, List.map_map]; rfl)
  refine ⟨?b, ?held, ?m', ?main⟩
  case main =>
    unfold stream
    simp only [Step.apply_bind, hexec, Step.apply_get, hng, hns, hclaim, hcreate, Step.apply_set,
      Step.apply_pure]
    rfl

/-- The streams that sessions over bounded assignments with `n` stats open over fields merge,
and the merge reads to its end as the merge of the sessions' streams, whatever bytes it records
as claimed. -/
theorem collect_opened {n : Nat} (hne : m.shards ≠ []) (hb : ∀ s ∈ m.shards, s.lookup.Bounded)
    (hdepth : ∀ s ∈ m.shards, s.stats.depth = n) (fields : List Field) :
    ∃ merger, Merger.create (m.shards.map (·.openedStream fields)) = .ok merger ∧
      ∀ b, (Cursor.collect.apply { merger with claimed := b }).1 =
        .ok (Merge.fields n (m.shards.map (·.ftgs fields))) := by
  have hrel : List.Forall₂ (fun c v => c.Shows (Replay.View.start v) ∧
      v.Bounded (Cursor.budget c) ∧ (Replay.View.start v).Below (Cursor.numGroups c))
      (m.shards.map (·.openedStream fields)) (m.shards.map (·.ftgs fields)) :=
    List.forall₂_map_left_iff.mpr (List.forall₂_map_right_iff.mpr (List.forall₂_same.mpr
      fun s hs => ShardSession.openedStream_start (hb s hs) fields))
  have hstats : ∀ c ∈ m.shards.map (·.openedStream fields), Cursor.numStats c = n := by
    intro c hc
    obtain ⟨s, hs, rfl⟩ := List.mem_map.mp hc
    show s.stats.columns.length = n
    simpa [StatStack.columns, StatStack.depth] using hdepth s hs
  exact Merger.collect_create_claimed ShardStream.shows_viewSim (fun _ _ h => h.groups_le) hrel
    (by simpa using hne) hstats (ShardSession.aligned_ftgs m.shards fields)

/-- The merge of the streams of sessions ready to stream a field reads to its end as their
pointwise sum, whatever bytes it records as claimed, and bounds its groups by the groups
counted. -/
theorem merge_streams {f : Field} {n : Nat} (hne : m.shards ≠ [])
    (hready : ∀ s ∈ m.shards, s.StreamsField f n) :
    ∃ merger, Merger.create (m.shards.map (·.openedStream [f])) = .ok merger ∧
      (∀ b, (Cursor.collect.apply { merger with claimed := b }).1 =
        .ok (Merge.fields n (m.shards.map (·.ftgs [f])))) ∧
      Merge.SumsStreams n (m.shards.map (·.ftgs [f]))
        (Merge.fields n (m.shards.map (·.ftgs [f]))) ∧
      merger.numGroups.toNat = ShardSession.groupBound m.shards := by
  obtain ⟨merger, hcreate, hcollect⟩ := collect_opened hne (fun s hs => (hready s hs).bounded)
    (fun s hs => (hready s hs).depth) [f]
  refine ⟨merger, hcreate, hcollect, ?_, ?_⟩
  · refine Merge.sumsStreams_fields (by simpa using hne) (ShardSession.aligned_ftgs m.shards [f])
      (fun v hv F hF => ?_)
      (fun v hv F hF B hB r hr => ?_)
    · obtain ⟨s, hs, rfl⟩ := List.mem_map.mp hv
      exact ShardSession.ascending_ftgs (hready s hs).nodup F hF
    · obtain ⟨s, hs, rfl⟩ := List.mem_map.mp hv
      rw [← (hready s hs).depth]
      exact ShardSession.stats_length_ftgs s [f] F hF B hB r hr
  · -- the merge's bound is the largest of the streams' bounds, and one at least
    obtain ⟨h1, hle, hone⟩ := Merger.numGroups_create hcreate
    refine (ShardSession.groupBound_eq (by simpa using UInt32.le_iff_toNat_le.mp h1)
      (fun s hs => UInt32.le_iff_toNat_le.mp (hle _ (List.mem_map_of_mem hs))) ?_).symm
    rcases hone with h | ⟨c, hc, h⟩
    · exact .inl (by rw [h]; rfl)
    · obtain ⟨s, hs, rfl⟩ := List.mem_map.mp hc
      exact .inr ⟨s, hs, congrArg UInt32.toNat h⟩

/-- An open multi-session over sessions ready to stream a field, with room in its pool for
their streams and their merge, answers the distinct terms of each group. -/
theorem distinct_apply {f : Field} {n : Nat} (hopen : m.closed = false) (hne : m.shards ≠ [])
    (hready : ∀ s ∈ m.shards, s.StreamsField f n) (hroom : m.RoomToStream n) :
    ∃ m', (distinct f).apply m = (.ok (ShardSession.distinctCounts m.shards f), m') := by
  obtain ⟨merger, hcreate, hcollect, hsums, hN⟩ := merge_streams hne hready
  obtain ⟨b, held, m₁, hstream⟩ := stream_apply hopen hne
    (fun s hs => ⟨(hready s hs).isOpen, (hready s hs).depth⟩) hroom hcreate
  refine ⟨?m', ?main⟩
  case main =>
    unfold distinct
    rw [Step.apply_bind, hstream]
    simp only [hcollect b, release, Step.apply_bind, Step.apply_modify, Step.apply_pure]
    rw [ShardSession.merged_counts hne (fun s hs => (hready s hs).nodup) hsums hN]

/-- Distinct terms are counted once per group however many shards hold them: a ready multi-session
with room in its pool answers for each group the distinct terms of the field that a document of it
holds in any shard, none for group 0. A shard session counts the same over its own assignment. -/
theorem distinct_counts_terms_once {f : Field} {n : Nat} (hopen : m.closed = false)
    (hne : m.shards ≠ []) (hready : ∀ s ∈ m.shards, s.StreamsField f n)
    (hroom : m.RoomToStream n) :
    (∃ m', (distinct f).apply m = (.ok (ShardSession.distinctCounts m.shards f), m')) ∧
      ∀ (s : ShardSession) (p : Memory.Pool), s.closed = false → s.lookup.Bounded →
        ((s.shard.lists f).map (·.1)).Nodup →
        p.used.toNat + (ShardStream.memoryFor s.lookup.numGroups 1).toNat ≤
          p.reservation.ceiling.toNat →
        (ShardSession.distinct f).apply (s, p) =
          (.ok (ShardSession.distinctCounts [s] f), (s, p)) := by
  refine ⟨distinct_apply hopen hne hready hroom, fun s p hc hb hnd hroom' => ?_⟩
  rw [ShardSession.distinct_apply f hc hroom',
    ShardSession.distinctByGroup_eq_distinctCounts hb hnd]

/-- The term 5 lies in group 2 in both shards and counts once there; group 1 holds the terms 5
and 6 of the first shard; the term 7 lies only in group 0. -/
theorem distinct_over_two_shards :
    let a : ShardSession :=
      { shard := { numDocs := 3, intFields := [("a", [(.int 5, [0, 1]), (.int 6, [2])])] },
        lookup := ⟨#[1, 2, 1], 3⟩, lookupClaim := 12, batch := 1 }
    let b : ShardSession :=
      { shard := { numDocs := 2, intFields := [("a", [(.int 5, [0]), (.int 7, [1])])] },
        lookup := ⟨#[2, 0], 3⟩, lookupClaim := 8, batch := 1 }
    let m : MultiSession :=
      { shards := [a, b], pool := Memory.Pool.create 1000, prime := 0, numSplits := 0,
        claimed := 0 }
    (∃ m', (distinct (Field.int "a")).apply m = (.ok [0, 2, 1], m')) ∧
      (ShardSession.distinct (Field.int "a")).apply (a, Memory.Pool.create 1000) =
        (.ok [0, 2, 1], (a, Memory.Pool.create 1000)) := by
  intro a b m
  have hready : ∀ s ∈ m.shards, s.StreamsField (Field.int "a") 0 := by
    intro s hs
    simp only [m, List.mem_cons, List.not_mem_nil, or_false] at hs
    rcases hs with rfl | rfl
    · exact ⟨rfl, ⟨by simp [a], by simp [a]⟩, by simp [a, Shard.lists, Field.int], rfl⟩
    · exact ⟨rfl, ⟨by simp [b], by simp [b]⟩, by simp [b, Shard.lists, Field.int], rfl⟩
  have hroom : m.RoomToStream 0 := by
    simp [RoomToStream, m, a, b, ShardSession.streamBytes, ShardSession.lookupBytes,
      ShardStream.memoryFor, Merger.memoryFor, largest, Lookup.size, StatStack.depth,
      Memory.Pool.create, Memory.Pool.used, UInt32.max_def]
  have hcount : ShardSession.distinctCounts m.shards (Field.int "a") = [0, 2, 1] := by
    decide
  have hcount₁ : ShardSession.distinctCounts [a] (Field.int "a") = [0, 2, 1] := by
    decide
  obtain ⟨h₁, h₂⟩ := distinct_counts_terms_once rfl (by simp [m]) hready hroom
  refine ⟨hcount ▸ h₁, hcount₁ ▸ h₂ a _ rfl (hready a (by simp [m])).bounded
    (hready a (by simp [m])).nodup
    (by simp [a, ShardStream.memoryFor, Memory.Pool.create, Memory.Pool.used])⟩

end MultiSession

end GroupStats
