import GroupStats.Proofs.Session.Distinct

/-!
# Split rounds serve the merged stream

A split round and the merged stream of a multi-session are two paths over the same shard
sessions. The round snapshots each session's assignment, opens a stream on each snapshot,
merges the streams and splits the merged stream by term, one output per split. The merged
stream opens a stream on each session and merges those. Main statement
(`split_round_serves_merged_stream`): when the `k` parties of a round register on an open
multi-session, one per split and in any order, every party but the last waits, the last runs the
round, the round succeeds and leaves the multi-session as it was, and output `i` reads back,
under any group bound at least the multi-session's, as the merged stream cut down to the terms
of split `i`, every field kept.

The argument has four parts. A merge keeps what a reader accepts (`Merge.fits_fields`). The
round's claims go through when the pool has room for all of them (`Snapshot.Claims`). The
round's outputs are then the encodings of the merged stream's parts
(`MultiSession.aggregate_of_room`). And the registrations of a permutation of the splits fill
the table once (`MultiSession.arrivals_run_round`).

The sessions' assignments must keep their groups below their bounds. An assignment made with
the initial group 4294967295 does not, its bound saturating at that group, and the round over
it fails (`round_refuses_top_group`).
-/

namespace GroupStats

open Replay Wire

/-! ### A merge keeps what a reader accepts -/

namespace Merge

variable {n : Nat} {G : UInt32}

/-- Summing rows of `n` stats into `n` values keeps `n` values. -/
theorem length_foldl_zipWith :
    ∀ (rs : List GroupRow) {acc : List Int64}, acc.length = n → (∀ r ∈ rs, r.stats.length = n) →
      (rs.foldl (fun acc r => List.zipWith (· + ·) acc r.stats) acc).length = n
  | [], _, hacc, _ => hacc
  | r :: rs, acc, hacc, hrs => by
    rw [List.foldl_cons]
    refine length_foldl_zipWith rs ?_ fun r' hr' => hrs r' (List.mem_cons_of_mem _ hr')
    simp [List.length_zipWith, hacc, hrs r List.mem_cons_self]

/-- A group summed over rows of `n` stats has `n` stats. -/
theorem length_statSum {rows : List GroupRow} (hn : ∀ r ∈ rows, r.stats.length = n)
    (g : GroupId) : (statSum n rows g).length = n :=
  length_foldl_zipWith _ (List.length_replicate ..) fun r hr => hn r (List.mem_filter.mp hr).1

/-- A term's summed groups fit a reader's bound and stat count when every group summed does. -/
theorem groupsFit_groups {gss : List (List GroupRow)} (h : ∀ gs ∈ gss, GroupsFit n G gs) :
    GroupsFit n G (groups n gss) := by
  have hn : ∀ gs ∈ gss, ∀ r ∈ gs, r.stats.length = n := fun gs hgs r hr => (h gs hgs r hr).2
  intro r hr
  obtain ⟨gs, hgs, r', hr', hg⟩ := (mem_groups gss r.group).mp (List.mem_map_of_mem hr)
  refine ⟨hg ▸ (h gs hgs r' hr').1, ?_⟩
  rw [stats_of_mem_groups hn hr]
  refine length_statSum (fun r₀ hr₀ => ?_) r.group
  obtain ⟨gs₀, hgs₀, hr₀⟩ := List.mem_flatten.mp hr₀
  exact hn gs₀ hgs₀ r₀ hr₀

/-- A block merged into a term heads one of the inputs. -/
theorem mem_of_mem_hits {t : Term} {tss : List (List TermBlock)} {b : TermBlock}
    (h : b ∈ hits t tss) : ∃ ts ∈ tss, b ∈ ts := by
  obtain ⟨ts, hts, hb⟩ := List.mem_filterMap.mp h
  exact ⟨ts, hts, List.mem_of_mem_head? (Option.mem_def.mpr (Option.filter_eq_some_iff.mp hb).1)⟩

/-- The merge of terms that a reader accepts in a field of type `ty` is accepted there too:
each merged term heads some input, and its groups are groups the inputs send. -/
theorem termsFit_terms {ty : FieldType} (tss : List (List TermBlock)) :
    (∀ ts ∈ tss, TermsFit n G ty ts) → TermsFit n G ty (terms n tss) := by
  induction tss using terms_induction with
  | none tss h =>
    intro _ B hB
    rw [terms_of_least_none h] at hB
    cases hB
  | some tss e h ih =>
    intro hfit B hB
    rw [terms_of_least_some h] at hB
    rcases List.mem_cons.mp hB with rfl | hB
    · obtain ⟨ts, hts, b, bs, rfl, hb⟩ := heads_least_drops h
      obtain ⟨hty, hshort, -⟩ := hfit _ hts b List.mem_cons_self
      refine ⟨by rw [block_term, ← hb]; exact hty, by rw [block_term, ← hb]; exact hshort,
        groupsFit_groups fun gs hgs => ?_⟩
      obtain ⟨c, hc, rfl⟩ := List.mem_map.mp hgs
      obtain ⟨ts', hts', hc'⟩ := mem_of_mem_hits hc
      exact (hfit ts' hts' c hc').2.2
    · -- the rest merges what the inputs hold once their heads of this term are dropped
      refine ih (fun ts hts => ?_) B hB
      obtain ⟨ts₀, hts₀, rfl⟩ := List.mem_map.mp hts
      exact fun b hb => hfit ts₀ hts₀ b (mem_of_mem_dropHead hb)

/-- The merge of aligned streams that a reader accepts is accepted by the reader: its fields
are the streams' fields, and each merges the terms the streams hold in that field. -/
theorem fits_fields {vs : List Ftgs} (hne : vs ≠ []) (ha : Aligned vs)
    (h : ∀ v ∈ vs, Fits n G v) : Fits n G (fields n vs) := by
  intro F hF
  obtain ⟨k, hk⟩ := List.mem_iff_getElem?.mp hF
  rw [getElem?_fields k hne ha, Option.map_eq_some_iff] at hk
  obtain ⟨f, hf, rfl⟩ := hk
  obtain ⟨v₀, hv₀, hf₀⟩ : ∃ v₀ ∈ vs, v₀[k]? = some f := by
    obtain ⟨v₀, rest, rfl⟩ := List.exists_cons_of_ne_nil hne
    exact ⟨v₀, List.mem_cons_self, by simpa using hf⟩
  refine ⟨(h v₀ hv₀ f (List.mem_of_getElem? hf₀)).1, termsFit_terms _ fun ts hts => ?_⟩
  obtain ⟨v, hv, rfl⟩ := List.mem_map.mp hts
  -- the `k`-th field of every stream is named as that of the first, by alignment
  cases hvk : v[k]? with
  | none => simp [termsAt, hvk, TermsFit]
  | some f' =>
    have hfield : f'.field = f.field := by
      have hk' := congrArg (·[k]?) (ha v hv v₀ hv₀)
      simpa [hvk, hf₀] using hk'
    simp only [termsAt, hvk, Option.map_some, Option.getD_some]
    rw [← hfield]
    exact (h v hv f' (List.mem_of_getElem? hvk)).2

end Merge

/-! ### Sessions ready for a round -/

namespace Shard

/-- A shard whose streams a reader takes back: each term of a field has the field's type, and
each byte term is within the wire's length limit. -/
structure Readable (s : Shard) : Prop where
  typed : ∀ f : Field, ∀ p ∈ s.lists f, p.1.fieldType = f.type
  short : ∀ f : Field, ∀ p ∈ s.lists f, Term.Short p.1

/-- A shard is readable when its integer fields list integer terms and its string fields list
byte terms within the wire's length limit. -/
theorem readable_of {s : Shard}
    (hint : ∀ e ∈ s.intFields, ∀ p ∈ e.2, p.1.fieldType = .int ∧ Term.Short p.1)
    (hstr : ∀ e ∈ s.stringFields, ∀ p ∈ e.2, p.1.fieldType = .string ∧ Term.Short p.1) :
    s.Readable := by
  -- the lists of a field are those of the first entry of its type under its name
  have hlists : ∀ f : Field, ∀ p ∈ s.lists f, p.1.fieldType = f.type ∧ Term.Short p.1 := by
    intro ⟨name, ty⟩ p hp
    cases ty with
    | int =>
      obtain ⟨e, hfind, hpe⟩ : ∃ e, s.intFields.find? (·.1 == name) = some e ∧ p ∈ e.2 := by
        cases hfind : s.intFields.find? (·.1 == name) <;> simp_all [lists]
      exact hint e (List.mem_of_find?_eq_some hfind) p hpe
    | string =>
      obtain ⟨e, hfind, hpe⟩ : ∃ e, s.stringFields.find? (·.1 == name) = some e ∧ p ∈ e.2 := by
        cases hfind : s.stringFields.find? (·.1 == name) <;> simp_all [lists]
      exact hstr e (List.mem_of_find?_eq_some hfind) p hpe
  exact ⟨fun f p hp => (hlists f p hp).1, fun f p hp => (hlists f p hp).2⟩

end Shard

namespace ShardSession

/-- A shard session ready for a split round with `n` stats: open, over an assignment that keeps
its groups below its bound, with `n` stats pushed, on a shard whose streams a reader takes
back. -/
structure ReadyToSplit (n : Nat) (s : ShardSession) : Prop where
  isOpen : s.closed = false
  bounded : s.lookup.Bounded
  depth : s.stats.depth = n
  readable : s.shard.Readable

variable {ss : List ShardSession} {s : ShardSession} {fields : List Field} {G : UInt32}

/-- A session's stream over fields whose names the wire carries, on a shard whose streams a
reader takes back, is accepted by a reader with the session's stat count and any group bound at
least the assignment's. -/
theorem fits_ftgs (hb : s.lookup.Bounded) (hs : s.shard.Readable)
    (hnames : ∀ f ∈ fields, (Bytes.ofString f.name).length ≤ maxLength)
    (hG : s.lookup.numGroups ≤ G) : Fits s.stats.depth G (s.ftgs fields) := by
  intro F hF
  obtain ⟨f, hf, rfl⟩ := List.mem_map.mp hF
  refine ⟨hnames f hf, fun t ht => ?_⟩
  obtain ⟨q, hq, rfl⟩ := List.mem_map.mp ht
  obtain ⟨p, hp, rfl⟩ := Shard.mem_terms_entries.mp hq
  refine ⟨hs.typed f p hp, hs.short f p hp, fun r hr => ?_⟩
  obtain ⟨g, hg, rfl⟩ := List.mem_map.mp hr
  obtain ⟨hg0, d, -, rfl⟩ := s.lookup.mem_termGroups.mp hg
  exact ⟨UInt32.lt_of_lt_of_le (hb.get_lt hg0) hG, by simp [StatStack.columns, StatStack.depth]⟩

/-- Streams opened over fields on sessions over bounded assignments, whatever each records as
claimed, stand at the starts of the sessions' streams. -/
theorem forall₂_start (hb : ∀ s ∈ ss, s.lookup.Bounded) (fields : List Field)
    (claimed : ShardSession → UInt64) :
    List.Forall₂ (fun c v => c.Shows (View.start v) ∧ v.Bounded (Cursor.budget c) ∧
        (View.start v).Below (Cursor.numGroups c))
      (ss.map fun s =>
        ShardStream.create s.shard s.lookup s.stats.columns fields s.batch (claimed s))
      (ss.map (·.ftgs fields)) :=
  List.forall₂_map_left_iff.mpr (List.forall₂_map_right_iff.mpr (List.forall₂_same.mpr
    fun s hs =>
      ShardStream.start_create (hb s hs) s.shard s.stats.columns fields s.batch (claimed s)))

end ShardSession

/-- A stat stack has a column for each stat pushed. -/
@[simp] theorem StatStack.length_columns (s : StatStack) : s.columns.length = s.depth := by
  simp [StatStack.columns, StatStack.depth]

/-! ### The claims of a round -/

namespace Snapshot

/-- With room for `cost` bytes in its pool, the claiming step gives `b` and claims exactly those
bytes. -/
def Claims {β : Type} (x : Memory.Pool → Except Error (β × Memory.Pool)) (b : β) (cost : Nat) :
    Prop :=
  ∀ p : Memory.Pool, p.used.toNat + cost ≤ p.reservation.ceiling.toNat →
    ∃ p', x p = .ok (b, p') ∧ p'.used.toNat = p.used.toNat + cost ∧
      p'.reservation.ceiling = p.reservation.ceiling

/-- The snapshot a round takes of a session: its shard, assignment, stats and batch size, with
the bytes of the copied assignment. -/
def ofSession (s : ShardSession) : Snapshot :=
  ⟨s.shard, s.lookup, s.stats.columns, s.batch, ShardSession.lookupBytes s.lookup.size⟩

/-- The stream a round opens on the snapshot of a session over fields. -/
def sessionStream (fields : List Field) (s : ShardSession) : ShardStream :=
  ShardStream.create s.shard s.lookup s.stats.columns fields s.batch
    (ShardStream.memoryFor s.lookup.numGroups s.stats.columns.length)

/-- An open session is snapshotted, its copy of the assignment claimed. -/
theorem take_claims {s : ShardSession} (hc : s.closed = false) :
    Claims (take s) (ofSession s) (ShardSession.lookupBytes s.lookup.size).toNat := by
  intro p hroom
  obtain ⟨p', hclaim, hused, hceil⟩ := Memory.Pool.claim_of_room hroom
  have hsize : (Lookup.create s.lookup.size 0).size = s.lookup.size := by
    simp [Lookup.create, Lookup.size]
  refine ⟨p', ?_, hused, hceil⟩
  simp [take, hc, hclaim, Lookup.copyInto, hsize, ofSession, bind, Except.bind, pure,
    Except.pure]

/-- The stream of a snapshot is opened, its per-group buffers claimed. -/
theorem stream_claims (c : Snapshot) (fields : List Field) :
    Claims (c.stream fields)
      (ShardStream.create c.shard c.lookup c.columns fields c.batch
        (ShardStream.memoryFor c.lookup.numGroups c.columns.length))
      (ShardStream.memoryFor c.lookup.numGroups c.columns.length).toNat := by
  intro p hroom
  obtain ⟨p', hclaim, hused, hceil⟩ := Memory.Pool.claim_of_room hroom
  exact ⟨p', by simp [stream, hclaim], hused, hceil⟩

/-- Claiming steps applied in order give all their results and claim the sum of their bytes. -/
theorem claimEach_claims {α β : Type} {f : α → Memory.Pool → Except Error (β × Memory.Pool)}
    {g : α → β} {cost : α → Nat} :
    ∀ xs : List α, (∀ a ∈ xs, Claims (f a) (g a) (cost a)) →
      Claims (claimEach f xs) (xs.map g) (xs.map cost).sum
  | [], _ => fun p _ => ⟨p, rfl, by simp, rfl⟩
  | a :: rest, h => by
    intro p hroom
    rw [List.map_cons, List.sum_cons] at hroom
    obtain ⟨p₁, ha, hused₁, hceil₁⟩ := h a List.mem_cons_self p (by omega)
    obtain ⟨p', hrest, hused', hceil'⟩ := claimEach_claims rest
      (fun a' ha' => h a' (List.mem_cons_of_mem _ ha')) p₁ (by rw [hused₁, hceil₁]; omega)
    refine ⟨p', ?_, by rw [hused', hused₁, List.map_cons, List.sum_cons]; omega,
      hceil'.trans hceil₁⟩
    simp [claimEach, ha, hrest, bind, Except.bind, pure, Except.pure]

end Snapshot

/-! ### A round over ready sessions -/

namespace MultiSession

variable {m : MultiSession} {fields : List Field} {n k : Nat}

/-- The pool of a multi-session has room for the claims of a split round over its shard
sessions: a copy of each assignment, the per-group buffers of each snapshot's stream, and the
totals of their merge. -/
def RoomForRound (m : MultiSession) : Prop :=
  m.pool.used.toNat + (m.shards.map fun s => (ShardSession.lookupBytes s.lookup.size).toNat).sum +
      (m.shards.map fun s => (ShardStream.memoryFor s.lookup.numGroups s.stats.depth).toNat).sum +
      (Merger.memoryFor m.numGroups m.numStats).toNat ≤ m.pool.reservation.ceiling.toNat

/-- Every session's bound is at most the multi-session's. -/
theorem lookup_numGroups_le {s : ShardSession} (hs : s ∈ m.shards) :
    s.lookup.numGroups ≤ m.numGroups :=
  (Merger.le_foldl_max (fun s : ShardSession => s.lookup.numGroups) m.shards 1).2 s hs

/-- The stat count of a multi-session whose sessions all have `n` stats. -/
theorem numStats_eq (hne : m.shards ≠ []) (hdepth : ∀ s ∈ m.shards, s.stats.depth = n) :
    m.numStats = n := by
  obtain ⟨s₀, rest, hcons⟩ := List.exists_cons_of_ne_nil hne
  simp [numStats, hcons, hdepth s₀ (hcons ▸ List.mem_cons_self)]

/-- The larger of two bounds is the one a running maximum keeps. -/
theorem max_eq_ite (a b : UInt32) : max a b = if a < b then b else a := by
  rw [UInt32.max_def]
  by_cases hlt : a < b
  · simp [hlt, UInt32.le_of_lt hlt]
  · by_cases hle : a ≤ b
    · simp [UInt32.le_antisymm hle (UInt32.not_lt.mp hlt)]
    · simp [hlt, hle]

/-- Over sessions whose bounds are one at least, the largest bound is the multi-session's. -/
theorem largest_numGroups (hb : ∀ s ∈ m.shards, 1 ≤ s.lookup.numGroups) :
    largest 1 (m.shards.map (·.lookup.numGroups)) = m.numGroups := by
  unfold numGroups
  cases hs : m.shards with
  | nil => rfl
  | cons s rest =>
    have h1 : 1 ≤ s.lookup.numGroups := hb s (by simp [hs])
    have hstart : (if (1 : UInt32) < s.lookup.numGroups then s.lookup.numGroups else 1) =
        s.lookup.numGroups := by
      by_cases hlt : (1 : UInt32) < s.lookup.numGroups
      · simp [hlt]
      · simp [UInt32.le_antisymm h1 (UInt32.not_lt.mp hlt)]
    simp only [largest, List.map_cons, List.foldl_cons, hstart, List.foldl_map, max_eq_ite]

/-- Room for a round is room for the merged stream: a session's stream claims the bytes its
snapshot and the snapshot's stream claim together, and the merge's totals are the same. -/
theorem roomToStream_of_room (hroom : m.RoomForRound) (hne : m.shards ≠ [])
    (hb : ∀ s ∈ m.shards, s.lookup.Bounded) (hdepth : ∀ s ∈ m.shards, s.stats.depth = n) :
    m.RoomToStream n := by
  unfold RoomForRound at hroom
  unfold RoomToStream
  have hsum : (m.shards.map fun s => s.streamBytes.toNat).sum ≤
      (m.shards.map fun s => (ShardSession.lookupBytes s.lookup.size).toNat).sum +
        (m.shards.map fun s =>
          (ShardStream.memoryFor s.lookup.numGroups s.stats.depth).toNat).sum := by
    rw [← List.sum_map_add]
    refine List.sum_le_sum fun s _ => ?_
    simp only [ShardSession.streamBytes, UInt64.toNat_add]
    exact Nat.mod_le _ _
  rw [largest_numGroups fun s hs => (hb s hs).one_le, ← numStats_eq hne hdepth]
  omega

/-- A round over open sessions with `n` stats over bounded assignments, with room in the pool
for its claims, succeeds into `k ≥ 1` outputs, output `i` receiving the encoding of the merge
of the sessions' streams cut down to the terms of split `i`. The merged stream's groups carry
`n` stats. -/
theorem aggregate_of_room (hne : m.shards ≠ [])
    (hready : ∀ s ∈ m.shards, s.closed = false ∧ s.lookup.Bounded ∧ s.stats.depth = n)
    (hroom : m.RoomForRound) (hk : 0 < k)
    (hn : ∀ F ∈ Merge.fields n (m.shards.map (·.ftgs fields)), ∀ t ∈ F.terms, ∀ g ∈ t.groups,
      g.stats.length = n) :
    Snapshot.aggregate m.shards m.pool fields ⟨m.prime⟩ k =
      (.ok (), (List.range k).map fun i =>
        encode ((Merge.fields n (m.shards.map (·.ftgs fields))).keepTerms
          fun t => (⟨m.prime⟩ : Splitter).index t k = i)) := by
  unfold RoomForRound at hroom
  -- the snapshots, then their streams, are claimed in turn
  obtain ⟨p₁, hsnaps, hused₁, hceil₁⟩ := Snapshot.claimEach_claims m.shards
    (fun s hs => Snapshot.take_claims (hready s hs).1) m.pool (by omega)
  obtain ⟨p₂, hstreams, hused₂, hceil₂⟩ := Snapshot.claimEach_claims
    (m.shards.map Snapshot.ofSession) (fun c _ => Snapshot.stream_claims c fields) p₁ (by
      simp only [hused₁, hceil₁, List.map_map, Function.comp_def, Snapshot.ofSession,
        StatStack.length_columns]
      omega)
  have hstreams' :
      Snapshot.claimEach (fun c => c.stream fields) (m.shards.map Snapshot.ofSession) p₁ =
      .ok (m.shards.map (Snapshot.sessionStream fields), p₂) := by
    rw [hstreams, List.map_map]
    rfl
  -- the merge's claim is for the multi-session's bound and stat count
  have hng : (m.shards.map (Snapshot.sessionStream fields)).foldl
      (fun g s => if g < s.lookup.numGroups then s.lookup.numGroups else g) 1 = m.numGroups := by
    rw [List.foldl_map]
    rfl
  have hns : ((m.shards.map (Snapshot.sessionStream fields)).head?.map (·.columns.length)).getD 0 =
      m.numStats := by
    obtain ⟨s₀, rest, hcons⟩ := List.exists_cons_of_ne_nil hne
    simp [hcons, numStats, Snapshot.sessionStream, ShardStream.create, StatStack.length_columns]
  have hroom₂ : p₂.used.toNat + (Merger.memoryFor m.numGroups m.numStats).toNat ≤
      p₂.reservation.ceiling.toNat := by
    rw [hused₂, hceil₂, hused₁, hceil₁]
    simp only [List.map_map, Function.comp_def, Snapshot.ofSession, StatStack.length_columns]
    omega
  obtain ⟨p₃, hclaim, -⟩ := Memory.Pool.claim_of_room hroom₂
  -- the merge of the snapshots' streams stands at the start of the merged stream
  have hstats : ∀ c ∈ m.shards.map (Snapshot.sessionStream fields), Cursor.numStats c = n := by
    intro c hc
    obtain ⟨s, hs, rfl⟩ := List.mem_map.mp hc
    show s.stats.columns.length = n
    rw [StatStack.length_columns]
    exact (hready s hs).2.2
  have hrel : List.Forall₂ (fun c v => c.Shows (View.start v) ∧ v.Bounded (Cursor.budget c) ∧
      (View.start v).Below (Cursor.numGroups c))
      (m.shards.map (Snapshot.sessionStream fields)) (m.shards.map (·.ftgs fields)) :=
    ShardSession.forall₂_start (fun s hs => (hready s hs).2.1) fields
      fun s => ShardStream.memoryFor s.lookup.numGroups s.stats.columns.length
  have hne' : m.shards.map (Snapshot.sessionStream fields) ≠ [] := by simpa using hne
  obtain ⟨merger, hcreate, hshows, hbound⟩ :=
    Merger.start_create hrel hne' hstats (ShardSession.aligned_ftgs m.shards fields)
  have hnum : Cursor.numStats merger = n := by
    rw [Merger.create_eq hne' hstats, Except.ok.injEq] at hcreate
    subst hcreate
    rfl
  -- split into `k` buffers, the merge leaves in buffer `i` the encoding of its `i`-th part
  obtain ⟨f, hspill, hdata⟩ := Splitter.spill_spec
    (Merger.shows_viewSim ShardStream.shows_viewSim fun _ _ h => h.groups_le) ⟨m.prime⟩ hk hshows
    rfl hbound (by rw [hnum]; exact hn)
  unfold Snapshot.aggregate
  simp only [hsnaps, hstreams', hng, hns, hclaim, hcreate, bind, Except.bind, hspill]
  exact Prod.ext rfl (List.map_congr_left fun i hi => hdata i (List.mem_range.mp hi))

end MultiSession

/-! ### The parties of a round -/

namespace Rendezvous

/-- The table gathers a round of `k` splits over fields: it is empty, or laid out for that
round. -/
def Gathers (t : Rendezvous) (fields : List Field) (k : Nat) : Prop :=
  t.arrived = [] ∨ (t.numSplits = k ∧ t.fields = fields)

end Rendezvous

namespace MultiSession

variable {m : MultiSession} {fields : List Field} {i k : Nat}

/-- On an open multi-session whose table gathers the round, a split not yet registered fills its
slot: it waits while slots are left, and when it fills the last one it empties the table to run
the round. -/
theorem register_fresh (hopen : m.closed = false) (hi : i < k) (hfresh : i ∉ m.table.arrived)
    (hg : m.table.Gathers fields k) :
    (register fields i k).apply m =
      if m.table.arrived.length + 1 < k then
        (.ok .wait, { m with table := ⟨k, fields, m.table.arrived ++ [i]⟩ })
      else (.ok .run, { m with table := {} }) := by
  rcases m with ⟨shards, pool, prime, numSplits, claimed, closed, ⟨tk, tf, ta⟩⟩
  dsimp only at hopen hfresh hg ⊢
  subst hopen
  have hk : ¬ (k = 0 ∨ k ≤ i) := by omega
  simp only [register, Step.apply_bind, Step.apply_get, Bool.false_eq_true, ↓reduceIte, hk]
  cases ta with
  | nil =>
    simp only [List.isEmpty_nil, Bool.not_true, Bool.false_eq_true, ↓reduceIte, List.nil_append,
      List.length_nil]
    by_cases hl : 0 + 1 < k <;> simp [hl]
  | cons a as =>
    -- a later party finds the round laid out for it and its slot free
    obtain ⟨htk, htf⟩ : tk = k ∧ tf = fields := hg.resolve_left (List.cons_ne_nil a as)
    subst tk tf
    have hnot : (a :: as).contains i = false := by simpa using hfresh
    simp only [List.isEmpty_cons, Bool.not_false, ↓reduceIte, ne_eq, not_true_eq_false, or_self,
      hnot, Bool.false_eq_true, List.length_append, List.length_singleton]
    by_cases hl : as.length + 1 + 1 < k <;> simp [hl]

/-- A party whose registration leaves slots open waits for the round. -/
theorem writeSplit_waits (hopen : m.closed = false) (hi : i < k) (hfresh : i ∉ m.table.arrived)
    (hg : m.table.Gathers fields k) (hlen : m.table.arrived.length + 1 < k) :
    (writeSplit fields i k).apply m =
      (.ok .waits, { m with table := ⟨k, fields, m.table.arrived ++ [i]⟩ }) := by
  have hreg := register_fresh hopen hi hfresh hg
  rw [if_pos hlen] at hreg
  simp [writeSplit, hreg]

/-- The party whose registration fills the last slot runs the round on the emptied table. -/
theorem writeSplit_runs (hopen : m.closed = false) (hi : i < k) (hfresh : i ∉ m.table.arrived)
    (hg : m.table.Gathers fields k) (hlen : m.table.arrived.length + 1 = k)
    {r : Except Error Unit} {outs : List Bytes} {m' : MultiSession}
    (hround : (runRound fields k).apply { m with table := {} } = (.ok (r, outs), m')) :
    (writeSplit fields i k).apply m = (.ok (.ran r outs), m') := by
  have hreg := register_fresh hopen hi hfresh hg
  rw [if_neg (by omega)] at hreg
  simp [writeSplit, hreg, hround]

/-- Parties of distinct splits not yet registered, leaving slots open, all wait; the table then
holds their splits after those already there, and still gathers the round. -/
theorem mapM_writeSplit_waits :
    ∀ (pre : List Nat) (m : MultiSession), m.closed = false → pre.Nodup →
      (∀ i ∈ pre, i < k ∧ i ∉ m.table.arrived) → m.table.arrived.length + pre.length < k →
      m.table.Gathers fields k →
      ∃ t, (pre.mapM fun i => writeSplit fields i k).apply m =
          (.ok (pre.map fun _ => .waits), { m with table := t }) ∧
        t.arrived = m.table.arrived ++ pre ∧ t.Gathers fields k
  | [], m, _, _, _, _, hg => ⟨m.table, rfl, by simp, hg⟩
  | i :: pre, m, hopen, hnd, hpre, hlen, hg => by
    rw [List.nodup_cons] at hnd
    rw [List.length_cons] at hlen
    have hi := hpre i List.mem_cons_self
    have hstep := writeSplit_waits hopen hi.1 hi.2 hg (by omega)
    -- the later parties find the first one's split in the table
    obtain ⟨t, hrun, harr, hg'⟩ := mapM_writeSplit_waits pre
      { m with table := ⟨k, fields, m.table.arrived ++ [i]⟩ } hopen hnd.2
      (fun j hj => ⟨(hpre j (List.mem_cons_of_mem _ hj)).1, by
        simp only [List.mem_append, List.mem_singleton, not_or]
        exact ⟨(hpre j (List.mem_cons_of_mem _ hj)).2, fun h => hnd.1 (h ▸ hj)⟩⟩)
      (by simp only [List.length_append, List.length_singleton]; omega) (.inr ⟨rfl, rfl⟩)
    refine ⟨t, ?_, by simp [harr], hg'⟩
    simp only [List.mapM_cons, Step.apply_bind, hstep, hrun, Step.apply_pure, List.map_cons]

/-- When the parties of a round of `k ≥ 1` splits register on an open multi-session with an
empty table, one per split and in any order, every party but the last waits and the last runs
the round on the emptied table. -/
theorem arrivals_run_round {order : List Nat} (hopen : m.closed = false)
    (hidle : m.table.arrived = []) (hk : 0 < k) (horder : order.Perm (List.range k))
    {r : Except Error Unit} {outs : List Bytes} {m' : MultiSession}
    (hround : (runRound fields k).apply { m with table := {} } = (.ok (r, outs), m')) :
    (order.mapM fun i => writeSplit fields i k).apply m =
      (.ok (List.replicate (k - 1) .waits ++ [.ran r outs]), m') := by
  have hlen : order.length = k := by simpa using horder.length_eq
  have hnd : order.Nodup := horder.nodup_iff.mpr List.nodup_range
  have hlt : ∀ i ∈ order, i < k := fun i hi => List.mem_range.mp (horder.mem_iff.mp hi)
  -- the last party to arrive is the one that fills the last slot
  obtain ⟨pre, last, rfl⟩ : ∃ pre last, order = pre ++ [last] := by
    refine ⟨order.dropLast, order.getLast (List.ne_nil_of_length_pos (by omega)), ?_⟩
    exact (List.dropLast_append_getLast _).symm
  rw [List.length_append, List.length_singleton] at hlen
  rw [List.nodup_append] at hnd
  have hlast : last ∉ pre := fun h => hnd.2.2 last h last (List.mem_singleton_self last) rfl
  obtain ⟨t, hpre, harr, hg⟩ := mapM_writeSplit_waits pre m hopen hnd.1
    (fun i hi => ⟨hlt i (List.mem_append_left _ hi), by simp [hidle]⟩) (by simp [hidle]; omega)
    (.inl hidle)
  have hlast_lt : last < k := hlt last (by simp)
  have hrun := writeSplit_runs (m := { m with table := t }) hopen hlast_lt
    (by simp [harr, hidle, hlast]) hg (by simp [harr, hidle]; omega) hround
  simp only [List.mapM_append, List.mapM_cons, List.mapM_nil, Step.apply_bind, hpre, hrun,
    Step.apply_pure, List.map_const']
  rw [← hlen, Nat.add_sub_cancel]

/-! ### The round and the merged stream -/

variable {n : Nat}

/-- The merge of the streams of sessions ready for a round is accepted by a reader with their
stat count and any group bound at least the multi-session's. -/
theorem fits_merged (hne : m.shards ≠ []) (hready : ∀ s ∈ m.shards, s.ReadyToSplit n)
    (hnames : ∀ f ∈ fields, (Bytes.ofString f.name).length ≤ maxLength) {G : UInt32}
    (hG : m.numGroups ≤ G) : Fits n G (Merge.fields n (m.shards.map (·.ftgs fields))) := by
  refine Merge.fits_fields (by simpa using hne) (ShardSession.aligned_ftgs m.shards fields) ?_
  intro v hv
  obtain ⟨s, hs, rfl⟩ := List.mem_map.mp hv
  rw [← (hready s hs).depth]
  exact ShardSession.fits_ftgs (hready s hs).bounded (hready s hs).readable hnames
    (UInt32.le_trans (lookup_numGroups_le hs) hG)

/-- The merged stream of an open multi-session over sessions ready for a round, with room in
its pool for the round, opens and reads to its end as the merge of the sessions' streams. -/
theorem stream_collects (hopen : m.closed = false) (hne : m.shards ≠ [])
    (hready : ∀ s ∈ m.shards, s.ReadyToSplit n) (hroom : m.RoomForRound) :
    ∃ merger held m', (stream fields).apply m = (.ok (merger, held), m') ∧
      (Cursor.collect.apply merger).1 = .ok (Merge.fields n (m.shards.map (·.ftgs fields))) := by
  obtain ⟨merger, hcreate, hcollect⟩ := collect_opened hne (fun s hs => (hready s hs).bounded)
    (fun s hs => (hready s hs).depth) fields
  obtain ⟨b, held, m', hstream⟩ := stream_apply hopen hne
    (fun s hs => ⟨(hready s hs).isOpen, (hready s hs).depth⟩)
    (roomToStream_of_room hroom hne (fun s hs => (hready s hs).bounded)
      fun s hs => (hready s hs).depth) hcreate
  exact ⟨_, held, m', hstream, hcollect b⟩

/-- A round over sessions ready for it, with room in the pool for its claims, succeeds without
touching the multi-session, output `i` receiving the encoding of the merged stream cut down to
the terms of split `i`. -/
theorem runRound_of_room (hne : m.shards ≠ []) (hready : ∀ s ∈ m.shards, s.ReadyToSplit n)
    (hnames : ∀ f ∈ fields, (Bytes.ofString f.name).length ≤ maxLength)
    (hroom : m.RoomForRound) (hk : 0 < k) :
    (runRound fields k).apply m =
      (.ok (.ok (), (List.range k).map fun i =>
        encode ((Merge.fields n (m.shards.map (·.ftgs fields))).keepTerms
          fun t => (⟨m.prime⟩ : Splitter).index t k = i)), m) := by
  have hW := fits_merged hne hready hnames (UInt32.le_refl m.numGroups)
  have hagg := aggregate_of_room hne
    (fun s hs => ⟨(hready s hs).isOpen, (hready s hs).bounded, (hready s hs).depth⟩) hroom hk
    fun F hF t ht g hg => (((hW F hF).2 t ht).2.2 g hg).2
  simp [runRound, hagg, Except.toBool]

/-- A split round agrees with the merged stream: when the `k ≥ 1` parties register in any order on a
ready multi-session with room for the round, the last runs it, which succeeds with `k` outputs and
leaves the multi-session as it was. Output `i` is the merged stream with each field's terms cut to
those of split `i`. -/
theorem split_round_serves_merged_stream {order : List Nat} (hopen : m.closed = false)
    (hidle : m.table.arrived = []) (hne : m.shards ≠ [])
    (hready : ∀ s ∈ m.shards, s.ReadyToSplit n)
    (hnames : ∀ f ∈ fields, (Bytes.ofString f.name).length ≤ maxLength)
    (hroom : m.RoomForRound) (hk : 0 < k) (horder : order.Perm (List.range k)) :
    ∃ W merger held m₁ outs,
      (stream fields).apply m = (.ok (merger, held), m₁) ∧
      (Cursor.collect.apply merger).1 = .ok W ∧
      (order.mapM fun i => writeSplit fields i k).apply m =
        (.ok (List.replicate (k - 1) .waits ++ [.ran (.ok ()) outs]), { m with table := {} }) ∧
      outs.length = k ∧
      ∀ i (hi : i < outs.length), ∀ G, m.numGroups ≤ G →
        (Cursor.collect.apply (Reader.ofBytes outs[i] m.numStats G)).1 =
          .ok (W.keepTerms fun t => (⟨m.prime⟩ : Splitter).index t k = i) := by
  obtain ⟨merger, held, m₁, hstream, hcollect⟩ := stream_collects hopen hne hready hroom
  have hround := runRound_of_room (m := { m with table := {} }) hne hready hnames hroom hk
  refine ⟨_, merger, held, m₁, _, hstream, hcollect,
    arrivals_run_round hopen hidle hk horder hround, by simp, fun i hi G hG => ?_⟩
  rw [List.getElem_map, List.getElem_range, numStats_eq hne fun s hs => (hready s hs).depth]
  exact collect_ofBytes_encode ((fits_merged hne hready hnames hG).keepTerms _)

/-- Two sessions hold the terms 5 and 6 of an integer field, the term 5 in group 1 of both; the
parties of a round of two splits arrive second split first, and the round succeeds at the
second arrival. -/
theorem round_over_two_shards :
    let a : ShardSession :=
      { shard := { numDocs := 2, intFields := [("f", [(.int 5, [0]), (.int 6, [1])])] },
        lookup := ⟨#[1, 2], 3⟩, lookupClaim := 8, batch := 1 }
    let b : ShardSession :=
      { shard := { numDocs := 1, intFields := [("f", [(.int 5, [0])])] },
        lookup := ⟨#[1], 2⟩, lookupClaim := 4, batch := 1 }
    let m : MultiSession :=
      { shards := [a, b], pool := Memory.Pool.create 1000, prime := 7, numSplits := 0,
        claimed := 0 }
    ∃ outs : List Bytes,
      ([1, 0].mapM fun i => writeSplit [Field.int "f"] i 2).apply m =
        (.ok [.waits, .ran (.ok ()) outs], { m with table := {} }) ∧ outs.length = 2 := by
  intro a b m
  have hready : ∀ s ∈ m.shards, s.ReadyToSplit 0 := by
    intro s hs
    simp only [m, List.mem_cons, List.not_mem_nil, or_false] at hs
    rcases hs with rfl | rfl
    · exact ⟨rfl, ⟨by simp [a], by simp [a]⟩, rfl,
        Shard.readable_of (by simp [a, or_imp, forall_and, Term.fieldType, Term.Short])
          (by simp [a])⟩
    · exact ⟨rfl, ⟨by simp [b], by simp [b]⟩, rfl,
        Shard.readable_of (by simp [b, Term.fieldType, Term.Short]) (by simp [b])⟩
  have hnames : ∀ f ∈ [Field.int "f"], (Bytes.ofString f.name).length ≤ maxLength := by
    simpa [Field.int, Utf8.ofString_eq_flatMap, maxLength] using
      Nat.le_trans (Char.utf8Size_le_four 'f') (by decide)
  have hroom : m.RoomForRound := by
    simp [RoomForRound, m, a, b, ShardSession.lookupBytes, ShardStream.memoryFor,
      Merger.memoryFor, numGroups, numStats, Lookup.size, StatStack.depth, Memory.Pool.create,
      Memory.Pool.used]
  obtain ⟨-, -, -, -, outs, -, -, hsplit, hlen, -⟩ := split_round_serves_merged_stream
    (n := 0) (k := 2) rfl rfl (by simp [m]) hready hnames hroom (by decide)
    (show [1, 0].Perm (List.range 2) by decide)
  exact ⟨outs, hsplit, hlen⟩

/-- An assignment made with the initial group 4294967295 has that group as its bound, since the
bound saturates, so it is not bounded: the round over it fails as corrupt, the merge refusing
the group, and the multi-session closes. -/
theorem round_refuses_top_group :
    let s : ShardSession :=
      { shard := { numDocs := 1, intFields := [("f", [(.int 7, [0])])] },
        lookup := Lookup.create 1 4294967295, lookupClaim := 4, batch := 1 }
    let m : MultiSession :=
      { shards := [s], pool := Memory.Pool.create 1099511627776, prime := 7, numSplits := 0,
        claimed := 0 }
    s.lookup.numGroups = 4294967295 ∧
      (match (writeSplit [Field.int "f"] 0 1).apply m with
        | (.ok (.ran r _), m') => some (r, m'.closed)
        | _ => none) = some (.error (.corrupt (.strayGroup 0 4294967295 4294967295)), true) := by
  intro s m
  exact ⟨by cbv, by cbv⟩

end MultiSession

end GroupStats
