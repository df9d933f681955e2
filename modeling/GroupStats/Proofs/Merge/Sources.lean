import GroupStats.Proofs.Merge.Union

/-!
# The term merge over term sources

A term merge over sources whose terms strictly ascend is their union: each call of `next`
moves to the next term of any source, ascending, with the summed frequency of the sources
holding it, and those sources, ascending, stand on it with its documents to hand out. Once no
term is left, every call answers no.

The sources are read through a `TermSource.Reading`: what a state stands on and what it has
ahead, with `next` moving from one to the other. What each source still has to give the merge
(`ahead`) is what it has ahead while it is still to advance, the posting it is queued with and
those after it, and nothing once it has run out. Advancing the pending sources changes none of
it, and choosing the least queued term drops that term from the sources whose next term it is.
So the merge walks `Merge.terms` of what the sources have ahead, which for ascending sources is
their union (`Merge.terms_eq_union`).
-/

namespace GroupStats

/-- A posting as a block of a merged stream: its term and frequency, with no groups. -/
def Posting.block (e : Posting) : TermBlock := ⟨e.term, e.docFreq, []⟩

namespace TermSource

/-- A reading of the states of a term source as a walk over postings: a state stands on `cur`,
if on any posting, with `rest` ahead. `next` moves onto the first posting ahead and leaves the
source `fresh`, and answers no when nothing is ahead; a source standing on a posting reports
its term and frequency. -/
structure Reading (σ : Type) [TermSource σ] where
  cur : σ → Option Posting
  rest : σ → List Posting
  fresh : σ → Prop
  next_cons : ∀ s e es, rest s = e :: es → ∃ s', (next : Step σ Bool).apply s = (.ok true, s') ∧
    cur s' = some e ∧ rest s' = es ∧ fresh s'
  next_nil : ∀ s, rest s = [] → ∃ s', (next : Step σ Bool).apply s = (.ok false, s')
  term : ∀ s e, cur s = some e → TermSource.term s = e.term
  docFreq : ∀ s e, cur s = some e → TermSource.docFreq s = e.docFreq

end TermSource

/-! ### Postings in memory -/

namespace Postings

/-- The postings after the current one. -/
def rest (p : Postings) : List Posting := p.entries.drop p.position

theorem next_apply (p : Postings) : (TermSource.next : Step Postings Bool).apply p =
    if p.position ≥ p.entries.length then (.ok false, { p with position := p.entries.length + 1 })
    else (.ok true, { p with position := p.position + 1, docCursor := 0 }) := by
  show next.apply p = _
  simp only [next, Step.apply_bind, Step.apply_get]
  split <;> rfl

/-- Postings in memory walk their entries: a source stands on the entry at its position, with
the entries after it ahead, and has handed out none of the documents of an entry it has just
moved onto. -/
def reading : TermSource.Reading Postings where
  cur p := p.current?
  rest := rest
  fresh p := p.docCursor = 0
  next_cons p e es h := by
    have hlt : p.position < p.entries.length := by
      by_contra hge
      rw [rest, List.drop_eq_nil_of_le (by omega)] at h
      cases h
    refine ⟨_, by rw [next_apply, if_neg (by omega)], ?_, ?_, rfl⟩
    · simp only [current?, Nat.add_one_ne_zero, if_false, Nat.add_sub_cancel]
      rw [← List.head?_drop, ← rest, h]
      rfl
    · simp only [rest] at h ⊢
      rw [← List.tail_drop, h]
      rfl
  next_nil p h := ⟨_, by rw [next_apply, if_pos (List.drop_eq_nil_iff.mp h)]⟩
  term p e h := by
    show (p.current?.map (·.term)).getD (.int 0) = e.term
    rw [h]
    rfl
  docFreq p e h := by
    show (p.current?.map (·.docFreq)).getD 0 = e.docFreq
    rw [h]
    rfl

/-- A batch of documents is the next `n` of the current entry's documents not yet handed
out. -/
theorem readDocs_apply {p : Postings} {e : Posting} (hc : p.current? = some e) (n : Nat) :
    (TermSource.readDocs n : Step Postings (List DocId)).apply p =
      (.ok ((e.docs.drop p.docCursor).take n),
        { p with docCursor := p.docCursor + ((e.docs.drop p.docCursor).take n).length }) := by
  show (readDocs n).apply p = _
  simp [readDocs, hc]

/-- Reading the documents of the current entry in batches of `n ≥ 1`, with more batches to
spare than documents left, hands out all the documents left, and moves nothing but the
document cursor. -/
theorem readAll_apply {e : Posting} {n : Nat} (hn : 0 < n) :
    ∀ (fuel : Nat) (p : Postings), p.current? = some e → (e.docs.drop p.docCursor).length < fuel →
      ∃ c, (TermMerge.readAll n fuel : Step Postings (List DocId)).apply p =
        (.ok (e.docs.drop p.docCursor), { p with docCursor := c })
  | 0, _, _, hlt => absurd hlt (Nat.not_lt_zero _)
  | fuel + 1, p, hc, hlt => by
    simp only [TermMerge.readAll, Step.apply_bind, readDocs_apply hc]
    cases hd : e.docs.drop p.docCursor with
    | nil => exact ⟨p.docCursor, by simp⟩
    | cons d ds =>
      -- a batch that is not empty moves the cursor past it, and the rest is read after it
      have hb : ((d :: ds).take n).isEmpty = false := by
        cases n with
        | zero => omega
        | succ n => rfl
      have hc' : ({ p with docCursor := p.docCursor + ((d :: ds).take n).length } : Postings).current? =
          some e := hc
      have hrest : e.docs.drop (p.docCursor + ((d :: ds).take n).length) = (d :: ds).drop n := by
        rw [← List.drop_drop, hd, List.length_take]
        rcases Nat.le_total n (d :: ds).length with h | h
        · rw [Nat.min_eq_left h]
        · rw [Nat.min_eq_right h, List.drop_length, List.drop_eq_nil_of_le h]
      obtain ⟨c, hrun⟩ := readAll_apply hn fuel _ hc' (by
        rw [hrest, List.length_drop]
        rw [hd] at hlt
        simp only [List.length_cons] at hlt ⊢
        omega)
      refine ⟨c, ?_⟩
      simp only [hb, Bool.false_eq_true, if_false, Step.apply_bind, hrun, hrest, Step.apply_pure,
        List.take_append_drop]

end Postings

namespace Posting

/-- What a source has ahead once the term `t` is merged: its next posting is gone if it was
`t`. -/
def dropTerm (t : Term) : List Posting → List Posting
  | e :: es => if e.term = t then es else e :: es
  | [] => []

theorem map_block_dropTerm (t : Term) (es : List Posting) :
    (dropTerm t es).map block = Merge.dropHead t (es.map block) := by
  cases es with
  | nil => rfl
  | cons e es => by_cases h : e.term = t <;> simp [dropTerm, Merge.dropHead, block, h]

end Posting

/-! ### What the sources still have to give -/

namespace TermMerge

variable {σ : Type} [TermSource σ] (R : TermSource.Reading σ)

/-- What source `i` of a merge, in state `s`, still has to give: what it has ahead while it is
still to advance, the posting it is queued with and those after it, and nothing once it has run
out. -/
def ahead (m : TermMerge σ) (i : Nat) (s : σ) : List Posting :=
  if i ∈ m.pending then R.rest s
  else if i ∈ m.queued.map (·.2) then (R.cur s).toList ++ R.rest s
  else []

/-- What every source of a merge still has to give. -/
def aheads (m : TermMerge σ) : List (List Posting) := m.sources.mapIdx fun i s => ahead R m i s

/-- What every source of a merge still has to give, as blocks of a merged stream. -/
def aheadBlocks (m : TermMerge σ) : List (List TermBlock) := (aheads R m).map (·.map Posting.block)

/-- The invariant of a merge over sources read by `R`: each source still to advance is listed
once and exists; each queued source is queued once and is not pending, with the term of the
posting it stands on, fresh; a merge that ran out has nothing pending or queued. -/
structure Walks (m : TermMerge σ) : Prop where
  pending_nodup : m.pending.Nodup
  pending_lt : ∀ i ∈ m.pending, i < m.sources.length
  queued_nodup : (m.queued.map (·.2)).Nodup
  queued : ∀ e ∈ m.queued, e.2 ∉ m.pending ∧
    ∃ s p, m.sources[e.2]? = some s ∧ R.cur s = some p ∧ p.term = e.1 ∧ R.fresh s
  state : m.state = .active ∨ m.state = .exhausted ∧ m.pending = [] ∧ m.queued = []

variable {R}

theorem getElem?_aheads (m : TermMerge σ) (i : Nat) :
    (aheads R m)[i]? = m.sources[i]?.map (ahead R m i) :=
  List.getElem?_mapIdx

/-- Merges whose sources have, index by index, the same to give have the same `aheads`. -/
theorem aheads_congr {m m' : TermMerge σ} (hl : m'.sources.length = m.sources.length)
    (h : ∀ i s s', m.sources[i]? = some s → m'.sources[i]? = some s' →
      ahead R m' i s' = ahead R m i s) :
    aheads R m' = aheads R m := by
  apply List.ext_getElem?
  intro i
  rw [getElem?_aheads, getElem?_aheads]
  cases hs : m.sources[i]? with
  | none =>
    have : m'.sources[i]? = none := by
      rw [List.getElem?_eq_none_iff] at hs ⊢
      omega
    rw [this]
    rfl
  | some s =>
    have hi := (List.getElem?_eq_some_iff.mp hs).1
    obtain ⟨s', hs'⟩ : ∃ s', m'.sources[i]? = some s' :=
      ⟨m'.sources[i], List.getElem?_eq_getElem (by omega)⟩
    rw [hs']
    simp [h i s s' hs hs']

omit [TermSource σ] in
theorem onSource_apply {α : Type} {x : Step σ α} {m : TermMerge σ} {i : Nat} {s : σ}
    (h : m.sources[i]? = some s) :
    (onSource i x).apply m =
      ((x.apply s).1.map some, { m with sources := m.sources.set i (x.apply s).2 }) := by
  simp [onSource, Step.apply_onIndex h]

/-! ### Advancing the pending sources -/

section Advance

variable {m : TermMerge σ} {i : Nat} {rest : List Nat} {s s' : σ}

theorem Walks.active (h : Walks R { m with pending := i :: rest }) : m.state = .active := by
  rcases h.state with hs | ⟨-, hp, -⟩
  · exact hs
  · cases hp

theorem Walks.not_queued (h : Walks R { m with pending := i :: rest }) :
    i ∉ m.queued.map (·.2) := by
  intro hmem
  obtain ⟨e, he, rfl⟩ := List.mem_map.mp hmem
  exact (h.queued e he).1 (List.mem_cons_self ..)

/-- A pending source that moves onto a posting is queued with its term; what every source still
has to give stays as it was. -/
theorem Walks.queue (h : Walks R { m with pending := i :: rest }) (hs : m.sources[i]? = some s)
    {e : Posting} {es : List Posting} (hr : R.rest s = e :: es) (hcur : R.cur s' = some e)
    (hrest : R.rest s' = es) (hfresh : R.fresh s') :
    Walks R { m with
        sources := m.sources.set i s', queued := m.queued ++ [(e.term, i)], pending := rest } ∧
      aheads R { m with
          sources := m.sources.set i s', queued := m.queued ++ [(e.term, i)], pending := rest } =
        aheads R { m with pending := i :: rest } := by
  have hi : i < m.sources.length := (List.getElem?_eq_some_iff.mp hs).1
  have hnd := List.nodup_cons.mp h.pending_nodup
  have hiq := h.not_queued
  refine ⟨⟨hnd.2, ?_, ?_, ?_, .inl h.active⟩, ?_⟩
  · intro j hj
    simpa using h.pending_lt j (List.mem_cons_of_mem _ hj)
  · simp only [List.map_append, List.map_cons, List.map_nil]
    exact List.nodup_append.mpr ⟨h.queued_nodup, by simp,
      fun a ha b hb => by rw [List.mem_singleton.mp hb]; rintro rfl; exact hiq ha⟩
  · intro q hq
    rcases List.mem_append.mp hq with hq | hq
    · obtain ⟨hp, t, p, ht, hp'⟩ := h.queued q hq
      have hne : i ≠ q.2 := fun hie => hp (hie ▸ List.mem_cons_self ..)
      exact ⟨fun hr => hp (List.mem_cons_of_mem _ hr), t, p,
        by rw [List.getElem?_set_ne hne]; exact ht, hp'⟩
    · rw [List.mem_singleton.mp hq]
      exact ⟨hnd.1, s', e, List.getElem?_set_self hi, hcur, rfl, hfresh⟩
  · apply aheads_congr (by simp)
    intro j t t' ht ht'
    by_cases hij : i = j
    · subst hij
      rw [List.getElem?_set_self hi] at ht'
      rw [hs] at ht
      cases ht
      cases ht'
      simp [ahead, hnd.1, hcur, hrest, hr]
    · rw [List.getElem?_set_ne hij] at ht'
      rw [ht] at ht'
      cases ht'
      have hj : (j ∈ i :: rest) = (j ∈ rest) := by simp [Ne.symm hij]
      have hq : (j ∈ (m.queued ++ [(e.term, i)]).map (·.2)) = (j ∈ m.queued.map (·.2)) := by
        simp [Ne.symm hij]
      simp only [ahead, hj, hq]

/-- A pending source that has run out is dropped; what every source still has to give stays as
it was. -/
theorem Walks.drop (h : Walks R { m with pending := i :: rest }) (s₁ : σ)
    (hs : m.sources[i]? = some s) (hr : R.rest s = []) :
    Walks R { m with sources := m.sources.set i s₁, pending := rest } ∧
      aheads R { m with sources := m.sources.set i s₁, pending := rest } =
        aheads R { m with pending := i :: rest } := by
  have hi : i < m.sources.length := (List.getElem?_eq_some_iff.mp hs).1
  have hnd := List.nodup_cons.mp h.pending_nodup
  have hiq := h.not_queued
  refine ⟨⟨hnd.2, ?_, h.queued_nodup, ?_, .inl h.active⟩, ?_⟩
  · intro j hj
    simpa using h.pending_lt j (List.mem_cons_of_mem _ hj)
  · intro q hq
    obtain ⟨hp, t, p, ht, hp'⟩ := h.queued q hq
    have hne : i ≠ q.2 := fun hie => hp (hie ▸ List.mem_cons_self ..)
    exact ⟨fun hr => hp (List.mem_cons_of_mem _ hr), t, p,
      by rw [List.getElem?_set_ne hne]; exact ht, hp'⟩
  · apply aheads_congr (by simp)
    intro j t t' ht ht'
    by_cases hij : i = j
    · subst hij
      rw [List.getElem?_set_self hi] at ht'
      rw [hs] at ht
      cases ht
      cases ht'
      simp [ahead, hnd.1, hiq, hr]
    · rw [List.getElem?_set_ne hij] at ht'
      rw [ht] at ht'
      cases ht'
      have hj : (j ∈ i :: rest) = (j ∈ rest) := by simp [Ne.symm hij]
      simp only [ahead, hj]

/-- Advancing the listed sources, which the merge counts as pending, queues those that move onto
a posting and drops those that have run out; what every source still has to give stays as it
was. -/
theorem advance_walks : ∀ (ps : List Nat) (m : TermMerge σ), m.pending = [] →
    Walks R { m with pending := ps } →
    ∃ srcs q, (advance ps).apply m = (.ok (), { m with sources := srcs, queued := q }) ∧
      Walks R { m with sources := srcs, queued := q } ∧
      aheads R { m with sources := srcs, queued := q } = aheads R { m with pending := ps }
  | [], m, hp, h => by
    obtain ⟨sources, queued, pending, contributors, current, docFreq, state⟩ := m
    simp only at hp
    subst hp
    exact ⟨sources, queued, rfl, h, rfl⟩
  | i :: rest, m, hp, h => by
    have hi := h.pending_lt i (List.mem_cons_self ..)
    obtain ⟨s, hs⟩ : ∃ s, m.sources[i]? = some s := ⟨_, List.getElem?_eq_getElem hi⟩
    cases hr : R.rest s with
    | cons e es =>
      obtain ⟨s', hnext, hcur, hrest, hfresh⟩ := R.next_cons s e es hr
      obtain ⟨h', haheads⟩ := h.queue hs hr hcur hrest hfresh
      obtain ⟨srcs, q, hrun, hw, ha⟩ := advance_walks rest
        { m with sources := m.sources.set i s', queued := m.queued ++ [(e.term, i)] } hp h'
      have hstep : (advance (i :: rest)).apply m = (advance rest).apply
          { m with sources := m.sources.set i s', queued := m.queued ++ [(e.term, i)] } := by
        simp [advance, onSource_apply hs, hnext, source?, List.getElem?_set_self hi,
          R.term s' e hcur]
      exact ⟨srcs, q, hstep.trans hrun, hw, ha.trans haheads⟩
    | nil =>
      obtain ⟨s', hnext⟩ := R.next_nil s hr
      obtain ⟨h', haheads⟩ := h.drop s' hs hr
      obtain ⟨srcs, q, hrun, hw, ha⟩ := advance_walks rest
        { m with sources := m.sources.set i s' } hp h'
      have hstep : (advance (i :: rest)).apply m =
          (advance rest).apply { m with sources := m.sources.set i s' } := by
        simp [advance, onSource_apply hs, hnext]
      exact ⟨srcs, q, hstep.trans hrun, hw, ha.trans haheads⟩

end Advance

/-! ### One step of the merge -/

section Next

variable {m : TermMerge σ}

/-- A queued source stands on the posting it is queued with, and has it and those after it
still to give. -/
theorem Walks.aheads_queued (h : Walks R m) {e : Term × Nat} (he : e ∈ m.queued) :
    ∃ s p, m.sources[e.2]? = some s ∧ R.cur s = some p ∧ p.term = e.1 ∧ R.fresh s ∧
      (aheads R m)[e.2]? = some (p :: R.rest s) := by
  obtain ⟨hp, s, p, hs, hc, ht, hf⟩ := h.queued e he
  refine ⟨s, p, hs, hc, ht, hf, ?_⟩
  rw [getElem?_aheads, hs]
  simp [ahead, hp, hc, List.mem_map.mpr ⟨e, he, rfl⟩]

theorem getElem?_aheadBlocks (m : TermMerge σ) (i : Nat) :
    (aheadBlocks R m)[i]? = (aheads R m)[i]?.map (·.map Posting.block) :=
  List.getElem?_map ..

/-- With nothing pending, the queue holds exactly the heads of what the sources still have to
give. -/
theorem Walks.mem_queued_iff (h : Walks R m) (hp : m.pending = []) (e : Term × Nat) :
    e ∈ m.queued ↔ e ∈ Merge.heads (aheadBlocks R m) := by
  rw [Merge.mem_heads]
  constructor
  · intro he
    obtain ⟨s, p, -, -, hpt, -, hA⟩ := h.aheads_queued he
    exact ⟨p.block, (R.rest s).map Posting.block, by simp [getElem?_aheadBlocks, hA], hpt⟩
  · rintro ⟨b, bs, hF, hbt⟩
    rw [getElem?_aheadBlocks, getElem?_aheads] at hF
    obtain ⟨ps, hps, hmap⟩ := Option.map_eq_some_iff.mp hF
    obtain ⟨s, hs, rfl⟩ := Option.map_eq_some_iff.mp hps
    -- the source has something to give, and with nothing pending it is queued
    simp only [ahead, hp, List.not_mem_nil, if_false] at hmap
    split at hmap
    · rename_i hq
      obtain ⟨e', he', hidx⟩ := List.mem_map.mp hq
      obtain ⟨s', p', hs', hc', hpt', -, -⟩ := h.aheads_queued he'
      rw [hidx, hs] at hs'
      cases hs'
      rw [hc'] at hmap
      simp only [Option.toList_some, List.singleton_append, List.map_cons, List.cons.injEq] at hmap
      obtain ⟨rfl, -⟩ := hmap
      have : e = e' := Prod.ext (hbt.symm.trans hpt') hidx.symm
      exact this ▸ he'
    · cases hmap

/-- With nothing pending, a source whose next posting is `t` is queued with `t`. -/
theorem Walks.mem_hitIdx_iff (h : Walks R m) (hp : m.pending = []) {t : Term} {i : Nat} :
    i ∈ Merge.hitIdx t (aheadBlocks R m) ↔ ∃ e ∈ m.queued, e.1 = t ∧ e.2 = i := by
  rw [Merge.mem_hitIdx]
  constructor
  · rintro ⟨b, bs, hF, rfl⟩
    have hmem : (b.term, i) ∈ Merge.heads (aheadBlocks R m) := Merge.mem_heads.mpr ⟨b, bs, hF, rfl⟩
    exact ⟨_, (h.mem_queued_iff hp _).mpr hmem, rfl, rfl⟩
  · rintro ⟨e, he, rfl, rfl⟩
    obtain ⟨b, bs, hF, hb⟩ := Merge.mem_heads.mp ((h.mem_queued_iff hp e).mp he)
    exact ⟨b, bs, hF, hb⟩

/-- The sources queued with `t`, sorted, are the sources whose next posting is `t`. -/
theorem Walks.sort_hits (h : Walks R m) (hp : m.pending = []) (t : Term) :
    ((m.queued.filter fun e => e.1 == t).map (·.2)).mergeSort (· ≤ ·) =
      Merge.hitIdx t (aheadBlocks R m) := by
  apply mergeSort_eq_of_mem_iff
  · exact h.queued_nodup.sublist ((List.filter_sublist).map _)
  · exact Merge.hitIdx_pairwise t _
  · intro i
    rw [h.mem_hitIdx_iff hp]
    simp only [List.mem_map, List.mem_filter, beq_iff_eq]
    constructor
    · rintro ⟨e, ⟨he, rfl⟩, rfl⟩
      exact ⟨e, he, rfl, rfl⟩
    · rintro ⟨e, he, rfl, rfl⟩
      exact ⟨e, ⟨he, rfl⟩, rfl⟩

/-- A source whose next posting is `t` stands on that posting, fresh, and has it and those after
it still to give. -/
theorem Walks.hit_posting (h : Walks R m) (hp : m.pending = []) {t : Term} {i : Nat}
    (hi : i ∈ Merge.hitIdx t (aheadBlocks R m)) :
    ∃ s p, m.sources[i]? = some s ∧ R.cur s = some p ∧ p.term = t ∧ R.fresh s ∧
      (aheads R m)[i]? = some (p :: R.rest s) := by
  obtain ⟨e, he, rfl, rfl⟩ := (h.mem_hitIdx_iff hp).mp hi
  exact h.aheads_queued he

/-- Choosing the term `t` with nothing pending: the sources whose next posting is `t` become
pending, the others stay queued, and each source has still to give what it had, less its next
posting if that was `t`. -/
theorem Walks.choose (h : Walks R m) (hp : m.pending = []) (t : Term) (ks : List Nat)
    (c : Option Term) (d : UInt64) :
    Walks R { m with
        queued := m.queued.filter (not ∘ fun e => e.1 == t),
        pending := Merge.hitIdx t (aheadBlocks R m), contributors := ks, current := c,
        docFreq := d } ∧
      aheads R { m with
          queued := m.queued.filter (not ∘ fun e => e.1 == t),
          pending := Merge.hitIdx t (aheadBlocks R m), contributors := ks, current := c,
          docFreq := d } =
        (aheads R m).map (Posting.dropTerm t) := by
  have hnot : ∀ e ∈ m.queued.filter (not ∘ fun e => e.1 == t), e.1 ≠ t := fun e he => by
    simpa using (List.mem_filter.mp he).2
  have hhit : ∀ e ∈ m.queued.filter (not ∘ fun e => e.1 == t),
      e.2 ∉ Merge.hitIdx t (aheadBlocks R m) := by
    intro e he hmem
    obtain ⟨e', he', hte', hie'⟩ := (h.mem_hitIdx_iff hp).mp hmem
    -- a source is queued once, so `e` and `e'` are the same entry
    have : e' = e := List.inj_on_of_nodup_map h.queued_nodup he' (List.mem_filter.mp he).1 hie'
    exact hnot e he (this ▸ hte')
  refine ⟨⟨(Merge.hitIdx_pairwise t _).imp Nat.ne_of_lt, ?_,
    h.queued_nodup.sublist ((List.filter_sublist).map _), ?_, ?_⟩, ?_⟩
  · intro i hi
    have := List.mem_range.mp (List.mem_filter.mp hi).1
    simpa [aheadBlocks, aheads] using this
  · intro e he
    exact ⟨hhit e he, (h.queued e (List.mem_filter.mp he).1).2⟩
  · rcases h.state with hs | ⟨hs, -, hq⟩
    · exact .inl hs
    · -- a merge that ran out has nothing queued, so no source has `t` next
      have hnil : Merge.hitIdx t (aheadBlocks R m) = [] :=
        List.eq_nil_iff_forall_not_mem.mpr fun i hi => by
          obtain ⟨e, he, -⟩ := (h.mem_hitIdx_iff hp).mp hi
          rw [hq] at he
          cases he
      exact .inr ⟨hs, hnil, by simp [hq]⟩
  · apply List.ext_getElem?
    intro j
    rw [getElem?_aheads, List.getElem?_map, getElem?_aheads]
    cases hs : m.sources[j]? with
    | none => rfl
    | some s =>
      simp only [Option.map_some, Option.some.injEq]
      by_cases hj : j ∈ Merge.hitIdx t (aheadBlocks R m)
      · -- the source gave `t`: it is pending now, with what follows its posting of `t`
        obtain ⟨s', p, hs', hc, hpt, -, hA⟩ := h.hit_posting hp hj
        rw [hs] at hs'
        cases hs'
        rw [getElem?_aheads, hs, Option.map_some, Option.some.injEq] at hA
        rw [hA]
        simp [ahead, hj, Posting.dropTerm, hpt]
      · by_cases hq : j ∈ (m.queued.filter (not ∘ fun e => e.1 == t)).map (·.2)
        · -- the source stays queued with a posting other than `t`
          obtain ⟨e, he, rfl⟩ := List.mem_map.mp hq
          obtain ⟨s', p, hs', hc, hpt, -, hA⟩ := h.aheads_queued (List.mem_filter.mp he).1
          rw [hs] at hs'
          cases hs'
          rw [getElem?_aheads, hs, Option.map_some, Option.some.injEq] at hA
          rw [hA]
          simp [ahead, hj, hq, hc, Posting.dropTerm, hpt ▸ hnot e he]
        · -- the source had run out
          have hq' : j ∉ m.queued.map (·.2) := by
            rintro hmem
            obtain ⟨e, he, rfl⟩ := List.mem_map.mp hmem
            by_cases het : e.1 = t
            · exact hj ((h.mem_hitIdx_iff hp).mpr ⟨e, he, het, rfl⟩)
            · exact hq (List.mem_map.mpr ⟨e, List.mem_filter.mpr ⟨he, by simpa using het⟩, rfl⟩)
          simp [ahead, hj, hq, hq', hp, Posting.dropTerm]

/-- The summed frequency the merge computes over the sources whose next posting is `t` is that
of the merged block. -/
theorem Walks.freq_hits (h : Walks R m) (hp : m.pending = []) (t : Term) :
    (Merge.hitIdx t (aheadBlocks R m)).foldl (fun acc i => acc + m.freqOf i) 0 =
      (Merge.hits t (aheadBlocks R m)).foldl (fun acc b => acc + b.docFreq) 0 := by
  have hfreq : ∀ i ∈ Merge.hitIdx t (aheadBlocks R m), m.freqOf i =
      (((aheadBlocks R m)[i]?.bind fun ts => ts.head?.filter (·.term = t)).getD default).docFreq := by
    intro i hi
    obtain ⟨s, p, hs, hc, hpt, -, hA⟩ := h.hit_posting hp hi
    subst hpt
    simp only [freqOf, source?, hs, Option.map_some, Option.getD_some, R.docFreq s p hc,
      getElem?_aheadBlocks, hA]
    simp [Posting.block, Option.filter]
  -- both sides sum the same frequencies over the same sources
  have := congrArg (List.foldl (· + ·) (0 : UInt64)) (List.map_congr_left hfreq)
  simpa only [Merge.hits_eq_map, List.foldl_map] using this

theorem walks_terminate (m : TermMerge σ) : Walks R m.terminate :=
  ⟨List.nodup_nil, by simp [TermMerge.terminate], by simp [TermMerge.terminate],
    by simp [TermMerge.terminate], .inr ⟨rfl, rfl, rfl⟩⟩

/-- A merge that ran out answers no and stays as it is. -/
theorem next_of_exhausted (hs : m.state = .exhausted) : next.apply m = (.ok false, m) := by
  simp [next, hs]

/-- With nothing pending or queued, no source has anything left to give. -/
theorem aheads_of_idle (m : TermMerge σ) (hp : m.pending = []) (hq : m.queued = []) :
    ∀ ts ∈ aheadBlocks R m, ts = [] := by
  intro ts hts
  obtain ⟨i, hi⟩ := List.mem_iff_getElem?.mp hts
  rw [getElem?_aheadBlocks, getElem?_aheads] at hi
  obtain ⟨ps, hps, rfl⟩ := Option.map_eq_some_iff.mp hi
  obtain ⟨s, -, rfl⟩ := Option.map_eq_some_iff.mp hps
  simp [ahead, hp, hq]

/-- When the sources of a running merge have nothing left to give, the merge ends and says
so: it stands on no term, with no frequency and no contributors. -/
theorem Walks.next_nil (h : Walks R m) (hact : m.state = .active) {n : Nat}
    (hend : Merge.terms n (aheadBlocks R m) = []) :
    ∃ m', next.apply m = (.ok false, m') ∧ m'.state = .exhausted ∧ m'.current = none ∧
      m'.docFreq = 0 ∧ m'.contributors = [] := by
  have hnone : least (Merge.heads (aheadBlocks R m)) = none := by
    cases he : least (Merge.heads (aheadBlocks R m)) with
    | none => rfl
    | some e => rw [Merge.terms_of_least_some he] at hend; cases hend
  obtain ⟨srcs, q, hrun, hw, haheads⟩ := advance_walks m.pending { m with pending := [] } rfl h
  have hleast : least q = none :=
    (Merge.least_congr (hw.mem_queued_iff rfl)).trans (by rw [aheadBlocks, haheads]; exact hnone)
  obtain ⟨sources, queued, pending, contributors, current, docFreq, state⟩ := m
  simp only at hact hrun
  subst hact
  refine ⟨terminate { sources := srcs, queued := q, pending := [], contributors, current, docFreq },
    ?_, rfl, rfl, rfl, rfl⟩
  simp only [next, Step.apply_bind, Step.apply_get, Step.apply_modify, Step.apply_attempt, hrun,
    hleast]
  rfl

/-- When the sources have terms left, the merge moves to the first merged block: its term and
summed frequency, with the sources whose next posting it is, ascending, as contributors. Each
of them stands on its posting of the term, fresh, and has still to give what it had less that
posting; the others have still to give what they had. -/
theorem Walks.next_cons (h : Walks R m) {n : Nat} {B : TermBlock} {rest : List TermBlock}
    (hterms : Merge.terms n (aheadBlocks R m) = B :: rest) :
    ∃ m', next.apply m = (.ok true, m') ∧ Walks R m' ∧ m'.state = .active ∧
      m'.current = some B.term ∧ m'.docFreq = B.docFreq ∧
      m'.contributors = Merge.hitIdx B.term (aheadBlocks R m) ∧ m'.pending = m'.contributors ∧
      aheads R m' = (aheads R m).map (Posting.dropTerm B.term) ∧
      ∀ i ∈ m'.contributors, ∃ s p, m'.sources[i]? = some s ∧ R.cur s = some p ∧
        p.term = B.term ∧ R.fresh s ∧ (aheads R m)[i]? = some (p :: R.rest s) := by
  obtain ⟨⟨t, j⟩, he⟩ : ∃ e, least (Merge.heads (aheadBlocks R m)) = some e := by
    cases he : least (Merge.heads (aheadBlocks R m)) with
    | none => rw [Merge.terms_of_least_none he] at hterms; cases hterms
    | some e => exact ⟨e, rfl⟩
  rw [Merge.terms_of_least_some he, List.cons.injEq] at hterms
  obtain ⟨rfl, -⟩ := hterms
  have hact : m.state = .active := by
    rcases h.state with hact | ⟨-, hp, hq⟩
    · exact hact
    · rw [least_eq_none.mpr (Merge.heads_eq_nil_iff.mpr (aheads_of_idle m hp hq))] at he
      cases he
  obtain ⟨srcs, q, hrun, hw, haheads⟩ := advance_walks m.pending { m with pending := [] } rfl h
  -- advancing changes nothing of what the sources have to give
  have haheads₀ : aheads R { m with pending := [], sources := srcs, queued := q } = aheads R m :=
    haheads
  have hblocks : aheadBlocks R { m with pending := [], sources := srcs, queued := q } =
      aheadBlocks R m := by
    rw [aheadBlocks, haheads₀]
    rfl
  have hleast : least q = some (t, j) :=
    (Merge.least_congr (hw.mem_queued_iff rfl)).trans (by rw [hblocks]; exact he)
  have hsort := hw.sort_hits rfl t
  have hfreq := hw.freq_hits rfl t
  have hhit := fun i (hi : i ∈ Merge.hitIdx t _) => hw.hit_posting rfl hi
  obtain ⟨hw', haheads'⟩ := hw.choose rfl t (Merge.hitIdx t (aheadBlocks R m)) (some t)
    (Merge.block n t (Merge.hits t (aheadBlocks R m))).docFreq
  rw [hblocks] at hsort hfreq hw' haheads' hhit
  rw [haheads₀] at haheads' hhit
  refine ⟨_, ?_, hw', hact, rfl, rfl, rfl, rfl, haheads', fun i hi => hhit i hi⟩
  obtain ⟨sources, queued, pending, contributors, current, docFreq, state⟩ := m
  simp only at hact hrun hsort hfreq
  subst hact
  simp only [next, Step.apply_bind, Step.apply_get, Step.apply_modify, Step.apply_attempt,
    Step.apply_set, Step.apply_pure, hrun, hleast, List.partition_eq_filter_filter, hsort, hfreq]
  rfl

end Next

end TermMerge

/-! ### Sources above a term -/

namespace Term

/-- Whether a term lies above `lo`; every term does when there is none. -/
def after (lo : Option Term) (t : Term) : Bool := lo.all fun l => decide (l < t)

theorem after_of_after_some {lo : Option Term} {t u : Term} (ht : after lo t = true)
    (hu : after (some t) u = true) : after lo u = true := by
  cases lo with
  | none => rfl
  | some l =>
    simp only [after, Option.all_some, decide_eq_true_eq] at ht hu ⊢
    exact compare_lt_trans ht hu

variable {α : Type} (key : α → Term) {lo : Option Term} {t : Term}

/-- Keeping what lies above `t`, itself above `lo`, keeps only what lies above `lo`. -/
theorem filter_after_some (ht : after lo t = true) (xs : List α) :
    xs.filter (fun x => after (some t) (key x)) =
      (xs.filter fun x => after lo (key x)).filter fun x => after (some t) (key x) := by
  rw [List.filter_filter]
  apply List.filter_congr
  intro x _
  by_cases hx : after (some t) (key x) = true
  · simp [hx, after_of_after_some ht hx]
  · simp [hx]

/-- In an ascending list of which nothing lies below `t`, what lies above `t` is all of it but a
first `t`. -/
theorem filter_after_cons {x : α} {xs : List α} (h : (x :: xs).Pairwise fun a b => key a < key b)
    (hx : ¬ key x < t) :
    (x :: xs).filter (fun y => after (some t) (key y)) = if key x = t then xs else x :: xs := by
  -- everything after the first lies above it, so above `t`
  have hrest : ∀ y ∈ xs, t < key x → after (some t) (key y) = true := fun y hy hlt => by
    simp only [after, Option.all_some, decide_eq_true_eq]
    exact compare_lt_trans hlt (List.rel_of_pairwise_cons h hy)
  by_cases hxt : key x = t
  · rw [if_pos hxt, List.filter_cons, if_neg (by simp [after, hxt, lt_irrefl])]
    refine List.filter_eq_self.mpr fun y hy => ?_
    simpa [after, ← hxt] using List.rel_of_pairwise_cons h hy
  · have hlt : t < key x := lt_of_not_lt_of_ne hx hxt
    rw [if_neg hxt, List.filter_cons, if_pos (by simpa [after] using hlt)]
    exact congrArg _ (List.filter_eq_self.mpr fun y hy => hrest y hy hlt)

end Term

namespace Postings

/-- A source whose entries strictly ascend by term. -/
def Ascending (p : Postings) : Prop := p.entries.Pairwise fun a b => a.term < b.term

instance (p : Postings) : Decidable p.Ascending :=
  inferInstanceAs (Decidable (p.entries.Pairwise fun a b => a.term < b.term))

/-- The posting of the term `t`, if the source has one. -/
def find? (p : Postings) (t : Term) : Option Posting := p.entries.find? (·.term = t)

/-- The entries of a source above the term `lo`; all of them when there is none. -/
def above (lo : Option Term) (p : Postings) : List Posting :=
  p.entries.filter fun e => Term.after lo e.term

variable {p : Postings} {lo : Option Term} {t : Term}

theorem Ascending.above (h : p.Ascending) (lo : Option Term) :
    (p.above lo).Pairwise fun a b => a.term < b.term :=
  List.Pairwise.filter _ h

/-- The entries above a term, as blocks, ascend as a merge needs. -/
theorem Ascending.blocks (h : p.Ascending) (lo : Option Term) :
    Merge.Ascending ((p.above lo).map Posting.block) :=
  List.pairwise_map.mpr (h.above lo)

/-- An entry of an ascending source is the one found for its term. -/
theorem Ascending.find?_of_mem (h : p.Ascending) {e : Posting} (he : e ∈ p.entries) :
    p.find? e.term = some e := by
  unfold find?
  obtain ⟨entries, position, docCursor⟩ := p
  simp only [Ascending] at h he ⊢
  induction entries with
  | nil => cases he
  | cons a as ih =>
    rcases List.mem_cons.mp he with rfl | he
    · simp
    · -- every later entry lies above the first, so the first is not `e`
      have hlt := List.rel_of_pairwise_cons h he
      rw [List.find?_cons_of_neg (by simpa using (Term.ne_of_lt hlt))]
      exact ih h.of_cons he

/-- A term above `lo` is found above `lo` where it is found at all. -/
theorem find?_above (ht : Term.after lo t = true) :
    (p.above lo).find? (·.term = t) = p.find? t := by
  rw [above, List.find?_filter, find?]
  congr 1
  funext e
  by_cases het : e.term = t
  · simp [het, ht]
  · simp [het]

/-- The block of a term above `lo` among a source's blocks above `lo` is that of its entry. -/
theorem find?_blocks_above (ht : Term.after lo t = true) :
    ((p.above lo).map Posting.block).find? (·.term = t) = (p.find? t).map Posting.block := by
  rw [List.find?_map, ← find?_above ht]
  rfl

/-- Once `t`, the least term above `lo`, is merged, an ascending source has left what lies above
`t`. -/
theorem above_some (h : p.Ascending) (ht : Term.after lo t = true)
    (hmin : ∀ e ∈ p.above lo, ¬ e.term < t) :
    p.above (some t) = Posting.dropTerm t (p.above lo) := by
  rw [above, Term.filter_after_some Posting.term ht, ← above]
  cases hA : p.above lo with
  | nil => rfl
  | cons e es =>
    rw [hA] at hmin
    have hpw := h.above lo
    rw [hA] at hpw
    rw [Term.filter_after_cons Posting.term hpw (hmin e (List.mem_cons_self ..))]
    rfl

end Postings

/-! ### Handing out documents -/

namespace Step

variable {σ α β : Type}

/-- A step run on the elements of a list in turn gives all their answers when each run gives its
answer and keeps an invariant indexed by the elements still to run. -/
theorem apply_mapM {f : β → Step σ α} (g : β → α) (P : List β → σ → Prop)
    (hf : ∀ i rest s, P (i :: rest) s → ∃ s', (f i).apply s = (.ok (g i), s') ∧ P rest s') :
    ∀ (cs : List β) (s : σ), P cs s → ∃ s', (cs.mapM f).apply s = (.ok (cs.map g), s') ∧ P [] s'
  | [], s, h => ⟨s, rfl, h⟩
  | i :: rest, s, h => by
    obtain ⟨s', hi, h'⟩ := hf i rest s h
    obtain ⟨s'', hrest, h''⟩ := apply_mapM g P hf rest s' h'
    exact ⟨s'', by simp [List.mapM_cons, hi, hrest], h''⟩

end Step

namespace TermMerge

/-- The merge `m` is `m₁` with documents of pending sources handed out: every source stands where
it stood, and the sources that are not pending are as they were. -/
structure HandedOut (m₁ m : TermMerge Postings) : Prop where
  eq : m = { m₁ with sources := m.sources }
  length : m.sources.length = m₁.sources.length
  place : ∀ (i : Nat) (s₁ s : Postings), m₁.sources[i]? = some s₁ → m.sources[i]? = some s →
    s.entries = s₁.entries ∧ s.position = s₁.position
  others : ∀ i : Nat, i ∉ m₁.pending → m.sources[i]? = m₁.sources[i]?

namespace HandedOut

variable {m₁ m : TermMerge Postings}

theorem refl (m₁ : TermMerge Postings) : HandedOut m₁ m₁ :=
  ⟨rfl, rfl, fun _ _ _ h₁ h => by rw [h₁] at h; cases h; exact ⟨rfl, rfl⟩, fun _ _ => rfl⟩

/-- Handing out documents of a pending source moves nothing but its document cursor. -/
theorem set (h : HandedOut m₁ m) {i : Nat} (hi : i ∈ m₁.pending) {s : Postings}
    (hs : m.sources[i]? = some s) (c : Nat) :
    HandedOut m₁ { m with sources := m.sources.set i { s with docCursor := c } } := by
  refine ⟨by rw [h.eq], by simp [h.length], fun j s₁ s' h₁ h' => ?_, fun j hj => ?_⟩
  · by_cases hij : i = j
    · subst hij
      have hlt : i < m.sources.length := (List.getElem?_eq_some_iff.mp hs).1
      rw [List.getElem?_set_self hlt] at h'
      cases h'
      exact h.place i s₁ s h₁ hs
    · rw [List.getElem?_set_ne hij] at h'
      exact h.place j s₁ s' h₁ h'
  · have hij : i ≠ j := fun e => hj (e ▸ hi)
    rw [List.getElem?_set_ne hij]
    exact h.others j hj

/-- What the sources still have to give does not change when documents are handed out. -/
theorem aheads_eq (h : HandedOut m₁ m) : aheads Postings.reading m = aheads Postings.reading m₁ := by
  apply aheads_congr h.length
  intro i s₁ s h₁ h'
  obtain ⟨he, hp⟩ := h.place i s₁ s h₁ h'
  rw [h.eq]
  simp [ahead, Postings.reading, Postings.current?, Postings.rest, he, hp]

theorem walks (h : HandedOut m₁ m) (hw : Walks Postings.reading m₁) : Walks Postings.reading m := by
  rw [h.eq]
  refine ⟨hw.pending_nodup, by simpa [h.length] using hw.pending_lt, hw.queued_nodup, ?_, hw.state⟩
  intro e he
  obtain ⟨hp, s, p, hs, hrest⟩ := hw.queued e he
  -- a queued source is not pending, so nothing was handed out of it
  exact ⟨hp, s, p, by rw [← hs]; exact h.others e.2 hp, hrest⟩

end HandedOut

end TermMerge

/-! ### The merge of ascending sources -/

namespace Postings

/-- The sources holding the term `t`, ascending. -/
def holders (ps : List Postings) (t : Term) : List Nat :=
  (List.range ps.length).filter fun i => (ps[i]?.bind (·.find? t)).isSome

/-- What merging the sources gives for the term `t`, its documents read: the summed frequency of
the sources holding `t`, those sources, and each one's documents and frequency for `t`. -/
def merged (ps : List Postings) (t : Term) : TermMerge.Merged :=
  ⟨t, (ps.filterMap (·.find? t)).foldl (fun acc e => acc + e.docFreq) 0, holders ps t,
    (holders ps t).map fun i =>
      let e := (ps[i]?.bind (·.find? t)).getD ⟨t, 0, []⟩
      (i, e.docs, e.docFreq)⟩

/-- The entries of the sources above `lo`, as blocks of a merged stream. -/
def blocksAbove (ps : List Postings) (lo : Option Term) : List (List TermBlock) :=
  (ps.map (above lo)).map (·.map Posting.block)

section Union

variable {ps : List Postings} {U : List Term} {lo : Option Term} {t : Term} {U' : List Term}

theorem mem_blocksAbove {ts : List TermBlock} :
    ts ∈ blocksAbove ps lo ↔ ∃ p ∈ ps, ts = (p.above lo).map Posting.block := by
  simp only [blocksAbove, List.map_map, List.mem_map, Function.comp_apply]
  exact ⟨fun ⟨p, hp, h⟩ => ⟨p, hp, h.symm⟩, fun ⟨p, hp, h⟩ => ⟨p, hp, h.symm⟩⟩

/-- The terms of the union above `lo` are the merge of the sources above `lo`. -/
theorem terms_blocksAbove (lo : Option Term) (hasc : ∀ p ∈ ps, p.Ascending) (hU : U.Pairwise (· < ·))
    (hmem : ∀ u, u ∈ U ↔ ∃ p ∈ ps, ∃ e ∈ p.entries, e.term = u) (n : Nat) :
    Merge.terms n (blocksAbove ps lo) = (U.filter (Term.after lo)).map fun u =>
      Merge.block n u ((blocksAbove ps lo).filterMap (·.find? (·.term = u))) := by
  refine Merge.terms_eq_union ?_ (hU.filter _) fun u => ?_
  · intro ts hts
    obtain ⟨p, hp, rfl⟩ := mem_blocksAbove.mp hts
    exact (hasc p hp).blocks lo
  · rw [List.mem_filter, hmem]
    constructor
    · rintro ⟨⟨p, hp, e, he, rfl⟩, hafter⟩
      exact ⟨_, mem_blocksAbove.mpr ⟨p, hp, rfl⟩, e.block,
        List.mem_map_of_mem (List.mem_filter.mpr ⟨he, hafter⟩), rfl⟩
    · rintro ⟨ts, hts, b, hb, rfl⟩
      obtain ⟨p, hp, rfl⟩ := mem_blocksAbove.mp hts
      obtain ⟨e, he, rfl⟩ := List.mem_map.mp hb
      obtain ⟨he, hafter⟩ := List.mem_filter.mp he
      exact ⟨⟨p, hp, e, he, rfl⟩, hafter⟩

/-- The next term of the union above `lo` lies above `lo`, and no entry of a source above `lo`
lies below it. -/
theorem least_above (hU : U.Pairwise (· < ·))
    (hmem : ∀ u, u ∈ U ↔ ∃ p ∈ ps, ∃ e ∈ p.entries, e.term = u)
    (h : U.filter (Term.after lo) = t :: U') :
    Term.after lo t = true ∧ ∀ p ∈ ps, ∀ e ∈ p.above lo, ¬ e.term < t := by
  have hsorted : (t :: U').Pairwise (· < ·) := h ▸ hU.filter _
  refine ⟨(List.mem_filter.mp (h ▸ List.mem_cons_self ..)).2, fun p hp e he hlt => ?_⟩
  obtain ⟨he, hafter⟩ := List.mem_filter.mp he
  have hmemU : e.term ∈ t :: U' := h ▸ List.mem_filter.mpr ⟨(hmem _).mpr ⟨p, hp, e, he, rfl⟩, hafter⟩
  rcases List.mem_cons.mp hmemU with heq | hU'
  · exact Term.lt_irrefl t (heq ▸ hlt)
  · exact Term.lt_asymm (List.rel_of_pairwise_cons hsorted hU') hlt

/-- The union above the next term is what follows it. -/
theorem filter_after_next (hU : U.Pairwise (· < ·)) (h : U.filter (Term.after lo) = t :: U')
    (ht : Term.after lo t = true) : U.filter (Term.after (some t)) = U' := by
  have hsorted : (t :: U').Pairwise (· < ·) := h ▸ hU.filter _
  have h' : U.filter (fun u => Term.after lo (id u)) = t :: U' := h
  show U.filter (fun u => Term.after (some t) (id u)) = U'
  rw [Term.filter_after_some id ht, h']
  simpa using Term.filter_after_cons id hsorted (Term.lt_irrefl t)

/-- The sources whose next entry above `lo` is the next term `t` are those holding `t`. -/
theorem hitIdx_blocksAbove (hasc : ∀ p ∈ ps, p.Ascending) (ht : Term.after lo t = true)
    (hmin : ∀ p ∈ ps, ∀ e ∈ p.above lo, ¬ e.term < t) :
    Merge.hitIdx t (blocksAbove ps lo) = holders ps t := by
  simp only [Merge.hitIdx, holders, blocksAbove, List.length_map]
  apply List.filter_congr
  intro i _
  simp only [List.getElem?_map]
  cases hp : ps[i]? with
  | none => rfl
  | some p =>
    have hpmem := List.mem_of_getElem? hp
    have hge : ∀ b ∈ ((p.above lo).map Posting.block).head?, Term.compare b.term t ≠ .lt := by
      intro b hb
      obtain ⟨e, he, rfl⟩ : ∃ e ∈ p.above lo, e.block = b := by
        cases hA : p.above lo with
        | nil => rw [hA] at hb; cases hb
        | cons e es =>
          rw [hA] at hb
          exact ⟨e, List.mem_cons_self .., Option.some.inj hb⟩
      exact hmin p hpmem e he
    simp only [Option.map_some, Option.bind_some,
      Merge.head?_filter_eq_find? ((hasc p hpmem).blocks lo) hge, find?_blocks_above ht]
    simp

/-- The blocks of `t` the sources hold above `lo` are those of their entries of `t`. -/
theorem filterMap_blocksAbove (ht : Term.after lo t = true) :
    (blocksAbove ps lo).filterMap (·.find? (·.term = t)) = (ps.filterMap (·.find? t)).map Posting.block := by
  simp only [blocksAbove, List.map_map, List.filterMap_map, List.map_filterMap]
  apply List.filterMap_congr
  intro p _
  exact find?_blocks_above ht

end Union

end Postings

namespace TermMerge

section Drain

variable {ps : List Postings} {U : List Term} {n : Nat}

/-- The frequency a merge reads from a source standing on a posting is that posting's. -/
theorem freqOf_eq {m : TermMerge Postings} {i : Nat} {s : Postings} {e : Posting}
    (hs : m.sources[i]? = some s) (hc : s.current? = some e) : m.freqOf i = e.docFreq := by
  simp only [freqOf, source?, hs, Option.map_some, Option.getD_some]
  exact Postings.reading.docFreq s e hc

/-- Handing out, in batches of `n ≥ 1`, the documents of the contributors of a merge, each
standing fresh on a posting with no more documents than its frequency, gives each contributor's
documents and frequency, and moves nothing but their document cursors. -/
theorem mapM_readAll (hn : 0 < n) {m₁ : TermMerge Postings} (hpend : m₁.pending = m₁.contributors)
    (hnd : m₁.contributors.Nodup)
    (hon : ∀ i ∈ m₁.contributors, ∃ s e, m₁.sources[i]? = some s ∧ s.current? = some e ∧
      s.docCursor = 0 ∧ e.docs.length ≤ e.docFreq.toNat) :
    ∃ m₂, (m₁.contributors.mapM fun i => do
          let ds ← onSource i (readAll n ((m₁.freqOf i).toNat + 1))
          pure (i, ds.getD [], m₁.freqOf i)).apply m₁ =
        (.ok (m₁.contributors.map fun i =>
          (i, ((m₁.sources[i]?.bind (·.current?)).map (·.docs)).getD [], m₁.freqOf i)), m₂) ∧
      HandedOut m₁ m₂ := by
  -- each contributor is read once, from where the merge left it
  refine (Step.apply_mapM _ (fun rest m => HandedOut m₁ m ∧
      (∀ j ∈ rest, m.sources[j]? = m₁.sources[j]?) ∧ rest.Nodup ∧ ∀ j ∈ rest, j ∈ m₁.contributors)
    ?_ m₁.contributors m₁ ⟨HandedOut.refl m₁, fun _ _ => rfl, hnd, fun _ h => h⟩).imp
    fun m₂ h => ⟨h.1, h.2.1⟩
  rintro i rest m ⟨hho, hsame, hnd', hsub⟩
  have hi := hsub i (List.mem_cons_self ..)
  obtain ⟨s, e, hs₁, hc, hfresh, hlen⟩ := hon i hi
  have hs : m.sources[i]? = some s := (hsame i (List.mem_cons_self ..)).trans hs₁
  have hfreq := freqOf_eq hs₁ hc
  obtain ⟨c, hread⟩ := Postings.readAll_apply hn (e.docFreq.toNat + 1) s hc (by simp [hfresh]; omega)
  refine ⟨{ m with sources := m.sources.set i { s with docCursor := c } }, ?_, ?_⟩
  · simp [onSource_apply hs, hfreq, hread, hs₁, hc, hfresh]
  · have hnd'' := List.nodup_cons.mp hnd'
    refine ⟨hho.set (hpend ▸ hi) hs c, fun j hj => ?_, hnd''.2,
      fun j hj => hsub j (List.mem_cons_of_mem _ hj)⟩
    have hij : i ≠ j := fun e => hnd''.1 (e ▸ hj)
    rw [List.getElem?_set_ne hij]
    exact hsame j (List.mem_cons_of_mem _ hj)

/-- Once the next term `t` above `lo` is chosen, the merge has for it what the sources hold of
`t`: its frequency, its contributors, and each contributor's documents and frequency. -/
theorem merged_head (hasc : ∀ p ∈ ps, p.Ascending) {lo : Option Term} {t : Term}
    (ht : Term.after lo t = true) (hmin : ∀ p ∈ ps, ∀ e ∈ p.above lo, ¬ e.term < t)
    {m₁ : TermMerge Postings} (hcur : m₁.current = some t)
    (hdf : m₁.docFreq =
      (Merge.block 0 t ((Postings.blocksAbove ps lo).filterMap (·.find? (·.term = t)))).docFreq)
    (hcon : m₁.contributors = Merge.hitIdx t (Postings.blocksAbove ps lo))
    (hentry : ∀ i ∈ m₁.contributors, ∃ s e q, m₁.sources[i]? = some s ∧ s.current? = some e ∧
      ps[i]? = some q ∧ e ∈ q.entries ∧ e.term = t) :
    (⟨m₁.current.getD (.int 0), m₁.docFreq, m₁.contributors,
        m₁.contributors.map fun i =>
          (i, ((m₁.sources[i]?.bind (·.current?)).map (·.docs)).getD [], m₁.freqOf i)⟩ : Merged) =
      Postings.merged ps t := by
  have hcon' : m₁.contributors = Postings.holders ps t := by
    rw [hcon, Postings.hitIdx_blocksAbove hasc ht hmin]
  simp only [Postings.merged, hcur, Option.getD_some, hdf, Merge.block,
    Postings.filterMap_blocksAbove ht, List.foldl_map, Merged.mk.injEq, true_and]
  refine ⟨rfl, hcon', ?_⟩
  rw [← hcon']
  refine List.map_congr_left fun i hi => ?_
  obtain ⟨s, e, q, hs, hc, hq, he, het⟩ := hentry i hi
  have hfind : q.find? t = some e := het ▸ (hasc q (List.mem_of_getElem? hq)).find?_of_mem he
  simp [hs, hc, hq, hfind, freqOf_eq hs hc]

/-- Draining a merge of ascending sources that have left what lies above `lo` gives the merged
terms of the union above `lo`, each with the documents of its sources read in batches of `n`,
and leaves the merge ended. -/
theorem drain_above (hasc : ∀ p ∈ ps, p.Ascending)
    (hdocs : ∀ p ∈ ps, ∀ e ∈ p.entries, e.docs.length ≤ e.docFreq.toNat)
    (hU : U.Pairwise (· < ·)) (hmem : ∀ u, u ∈ U ↔ ∃ p ∈ ps, ∃ e ∈ p.entries, e.term = u)
    (hn : 0 < n) :
    ∀ (fuel : Nat) (lo : Option Term) (m : TermMerge Postings), Walks Postings.reading m →
      m.state = .active → aheads Postings.reading m = ps.map (Postings.above lo) →
      (U.filter (Term.after lo)).length < fuel →
      ∃ m', (drain (some n) fuel).apply m =
          (.ok ((U.filter (Term.after lo)).map (Postings.merged ps)), m') ∧
        m'.state = .exhausted ∧ m'.current = none ∧ m'.docFreq = 0 ∧ m'.contributors = []
  | 0, _, _, _, _, _, hlt => absurd hlt (Nat.not_lt_zero _)
  | fuel + 1, lo, m, hw, hact, hA, hlt => by
    have hblocks : aheadBlocks Postings.reading m = Postings.blocksAbove ps lo := by
      rw [aheadBlocks, hA]
      rfl
    have hterms := Postings.terms_blocksAbove lo hasc hU hmem 0
    rw [← hblocks] at hterms
    cases hU' : U.filter (Term.after lo) with
    | nil =>
      rw [hU', List.map_nil] at hterms
      obtain ⟨m', hnext, hs, hc, hd, hk⟩ := hw.next_nil hact hterms
      exact ⟨m', by simp [drain, hnext], hs, hc, hd, hk⟩
    | cons t U' =>
      rw [hU', List.map_cons] at hterms
      obtain ⟨ht, hmin⟩ := Postings.least_above hU hmem hU'
      obtain ⟨m₁, hnext, hw₁, hact₁, hcur, hdf, hcon, hpend, hA₁, hpost⟩ := hw.next_cons hterms
      -- the contributors are the sources holding `t`, each standing fresh on its entry of `t`
      have hentry : ∀ i ∈ m₁.contributors, ∃ s e q, m₁.sources[i]? = some s ∧
          s.current? = some e ∧ s.docCursor = 0 ∧ ps[i]? = some q ∧ e ∈ q.entries ∧ e.term = t := by
        intro i hi
        obtain ⟨s, e, hs, hc, het, hfresh, hAi⟩ := hpost i hi
        rw [hA, List.getElem?_map] at hAi
        obtain ⟨q, hq, hqa⟩ := Option.map_eq_some_iff.mp hAi
        have he : e ∈ q.above lo := hqa ▸ List.mem_cons_self ..
        exact ⟨s, e, q, hs, hc, hfresh, hq, (List.mem_filter.mp he).1, het⟩
      obtain ⟨m₂, hr, hho⟩ := mapM_readAll hn hpend (hpend ▸ hw₁.pending_nodup) fun i hi => by
        obtain ⟨s, e, q, hs, hc, hf, hq, he, -⟩ := hentry i hi
        exact ⟨s, e, hs, hc, hf, hdocs q (List.mem_of_getElem? hq) e he⟩
      -- what is merged for `t` is the sources' entries of `t`
      have hhead := merged_head hasc ht hmin hcur (by rw [hdf, hblocks])
        (by rw [hcon, Merge.block_term, hblocks]) fun i hi => by
          obtain ⟨s, e, q, hs, hc, -, hq, he, het⟩ := hentry i hi
          exact ⟨s, e, q, hs, hc, hq, he, het⟩
      -- the rest of the drain starts above `t`
      have hU'' := Postings.filter_after_next hU hU' ht
      rw [hU', List.length_cons] at hlt
      obtain ⟨m', hrec, hs', hc', hd', hk'⟩ := drain_above hasc hdocs hU hmem hn fuel (some t) m₂
        (hho.walks hw₁) (by rw [hho.eq]; exact hact₁)
        (by
          rw [hho.aheads_eq, hA₁, hA, List.map_map]
          exact List.map_congr_left fun p hp => (Postings.above_some (hasc p hp) ht (hmin p hp)).symm)
        (by rw [hU'']; omega)
      refine ⟨m', ?_, hs', hc', hd', hk'⟩
      simp only [drain, Step.apply_bind, hnext, Bool.not_true, Bool.false_eq_true, if_false,
        Step.apply_get]
      rw [hr]
      simp only [hU'', hrec, Step.apply_pure, hhead, List.map_cons]

end Drain

end TermMerge

/-! ### Closing -/

/-- The first failure among outcomes taken in order; success when none failed. -/
def firstFailure : List (Except Error Unit) → Except Error Unit
  | [] => .ok ()
  | .ok () :: os => firstFailure os
  | .error e :: _ => .error e

namespace TermMerge

variable {σ : Type} [TermSource σ]

/-- The failure the merge looks for among the sources' outcomes is the first one. -/
theorem find?_outcomes : ∀ os : List (Except Error Unit),
    (os.map (Except.map some)).find? (·.toBool == false) =
      match firstFailure os with
      | .ok () => none
      | .error e => some (.error e)
  | [] => rfl
  | .ok () :: os => by
    rw [List.map_cons, List.find?_cons_of_neg (by simp [Except.toBool, Except.map]),
      find?_outcomes os]
    rfl
  | .error e :: os => by
    rw [List.map_cons, List.find?_cons_of_pos (by simp [Except.toBool, Except.map])]
    rfl

/-- Closing the sources from index `k` on, each in turn, closes each of them once and gathers
their outcomes, whatever each one answers. -/
theorem mapM_close (m : TermMerge σ) : ∀ (j k : Nat) (m' : TermMerge σ), k + j = m.sources.length →
    m'.sources = (m.sources.take k).map (fun s => (TermSource.close.apply s).2) ++ m.sources.drop k →
    ((List.range' k j).mapM fun i => Step.attempt (onSource i TermSource.close)).apply m' =
      (.ok ((m.sources.drop k).map fun s => (TermSource.close.apply s).1.map some),
        { m' with sources := m.sources.map fun s => (TermSource.close.apply s).2 })
  | 0, k, m', hk, hs => by
    have hdrop : m.sources.drop k = [] := List.drop_eq_nil_of_le (by omega)
    have htake : m.sources.take k = m.sources := List.take_of_length_le (by omega)
    rw [htake, hdrop, List.append_nil] at hs
    rw [hdrop, ← hs]
    rfl
  | j + 1, k, m', hk, hs => by
    have hlt : k < m.sources.length := by omega
    -- the source at `k` is still open
    have hA : ((m.sources.take k).map fun s => (TermSource.close.apply s).2).length = k := by
      simp
      omega
    have hget : m'.sources[k]? = some m.sources[k] := by
      rw [hs, List.getElem?_append_right (by omega), hA, Nat.sub_self, List.getElem?_drop,
        Nat.add_zero, List.getElem?_eq_getElem hlt]
    have hs' : m'.sources.set k (TermSource.close.apply m.sources[k]).2 =
        (m.sources.take (k + 1)).map (fun s => (TermSource.close.apply s).2) ++
          m.sources.drop (k + 1) := by
      rw [hs, List.drop_eq_getElem_cons hlt, List.set_append_right _ _ (by omega), hA, Nat.sub_self,
        List.set_cons_zero, List.take_add_one, List.getElem?_eq_getElem hlt]
      simp only [Option.toList_some, List.map_append, List.map_cons, List.map_nil,
        List.append_assoc, List.singleton_append]
    have hrun := mapM_close m j (k + 1)
      { m' with sources := m'.sources.set k (TermSource.close.apply m.sources[k]).2 } (by omega) hs'
    simp only [List.range'_succ, List.mapM_cons, Step.apply_bind, Step.apply_attempt,
      onSource_apply hget, hrun, Step.apply_pure, List.drop_eq_getElem_cons hlt, List.map_cons]

/-- Closing a merge that is not closed closes every source once, in order, whatever each one
answers, and reports the first failure; the merge is left closed, on no term. -/
theorem close_apply (m : TermMerge σ) (hm : m.state ≠ .closed) :
    close.apply m = (firstFailure (m.sources.map fun s => (TermSource.close.apply s).1),
      { m.terminate with
        state := .closed
        sources := m.sources.map fun s => (TermSource.close.apply s).2 }) := by
  have hrun := mapM_close m m.sources.length 0 { m.terminate with state := .closed } (by simp)
    (by simp [terminate])
  simp only [List.drop_zero] at hrun
  simp only [close, Step.apply_bind, Step.apply_get, hm, if_false, Step.apply_modify,
    List.range_eq_range', terminate] at hrun ⊢
  rw [hrun]
  have hfind := find?_outcomes (m.sources.map fun s => (TermSource.close.apply s).1)
  rw [List.map_map] at hfind
  simp only [Function.comp_def] at hfind
  simp only [hfind]
  cases firstFailure (m.sources.map fun s => (TermSource.close.apply s).1) with
  | ok u => cases u; rfl
  | error e => rfl

/-- A closed merge fails every `next` as closed, and closing it again does nothing. -/
theorem next_close_of_closed {m : TermMerge σ} (hm : m.state = .closed) :
    next.apply m = (.error (.closed .termMerge), m) ∧ close.apply m = (.ok (), m) := by
  constructor
  · simp [next, hm]
  · simp [close, hm]

/-! ### The merge of term sources -/

/-- A new merge of fresh sources has every source still to advance, with all its entries to
give. -/
theorem walks_create {ps : List Postings} (hne : ps ≠ []) (hfresh : ∀ p ∈ ps, p.position = 0) :
    ∃ m₀, create ps = .ok m₀ ∧ Walks Postings.reading m₀ ∧ m₀.state = .active ∧
      aheads Postings.reading m₀ = ps.map (Postings.above none) := by
  refine ⟨{ sources := ps, pending := List.range ps.length }, ?_, ?_, rfl, ?_⟩
  · simp [create, hne]
  · exact ⟨List.nodup_range, fun i hi => List.mem_range.mp hi, List.nodup_nil,
      (fun _ he => by cases he), .inl rfl⟩
  · apply List.ext_getElem?
    intro i
    rw [getElem?_aheads, List.getElem?_map]
    cases hp : ps[i]? with
    | none => rfl
    | some p =>
      have hi := (List.getElem?_eq_some_iff.mp hp).1
      simp [ahead, hi, Postings.reading, Postings.rest, hfresh p (List.mem_of_getElem? hp),
        Postings.above, Term.after]

/-- A merge of fresh sources whose entries strictly ascend gives their union, for any batch size:
every term once, ascending, with its summed frequency, its sources ascending and each one's
documents, and then nothing more. Closing closes each source once, in order, reports the first
failure, and leaves the merge closed. -/
theorem merge_union (ps : List Postings) (U : List Term) (n fuel : Nat) (hne : ps ≠ [])
    (hfresh : ∀ p ∈ ps, p.position = 0) (hasc : ∀ p ∈ ps, p.Ascending)
    (hdocs : ∀ p ∈ ps, ∀ e ∈ p.entries, e.docs.length ≤ e.docFreq.toNat)
    (hU : U.Pairwise (· < ·)) (hmem : ∀ u, u ∈ U ↔ ∃ p ∈ ps, ∃ e ∈ p.entries, e.term = u)
    (hn : 0 < n) (hfuel : U.length < fuel) :
    (∃ m₀ m, create ps = .ok m₀ ∧
      (drain (some n) fuel).apply m₀ = (.ok (U.map (Postings.merged ps)), m) ∧
      m.current = none ∧ m.docFreq = 0 ∧ m.contributors = [] ∧ next.apply m = (.ok false, m)) ∧
    ∀ {σ : Type} [TermSource σ] (m : TermMerge σ), m.state ≠ .closed →
      (close.apply m).1 = firstFailure (m.sources.map fun s => (TermSource.close.apply s).1) ∧
      (close.apply m).2.sources = m.sources.map (fun s => (TermSource.close.apply s).2) ∧
      next.apply (close.apply m).2 = (.error (.closed .termMerge), (close.apply m).2) ∧
      close.apply (close.apply m).2 = (.ok (), (close.apply m).2) := by
  refine ⟨?_, fun m hm => ?_⟩
  · obtain ⟨m₀, hcreate, hw, hact, hA⟩ := walks_create hne hfresh
    have hall : U.filter (Term.after none) = U := List.filter_eq_self.mpr fun _ _ => rfl
    obtain ⟨m, hdrain, hs, hc, hd, hk⟩ :=
      drain_above hasc hdocs hU hmem hn fuel none m₀ hw hact hA (by rw [hall]; exact hfuel)
    rw [hall] at hdrain
    exact ⟨m₀, m, hcreate, hdrain, hc, hd, hk, next_of_exhausted hs⟩
  · rw [close_apply m hm]
    exact ⟨rfl, rfl, next_close_of_closed rfl⟩

theorem merge_union_two_sources :
    let ps : List Postings :=
      [⟨[⟨.int 1, 1, [0]⟩, ⟨.int 3, 2, [1, 2]⟩], 0, 0⟩, ⟨[⟨.int 2, 1, [5]⟩, ⟨.int 3, 1, [4]⟩], 0, 0⟩]
    let U : List Term := [.int 1, .int 2, .int 3]
    ps ≠ [] ∧ (∀ p ∈ ps, p.position = 0) ∧ (∀ p ∈ ps, p.Ascending) ∧
      (∀ p ∈ ps, ∀ e ∈ p.entries, e.docs.length ≤ e.docFreq.toNat) ∧ U.Pairwise (· < ·) ∧
      (∀ u, u ∈ U ↔ ∃ p ∈ ps, ∃ e ∈ p.entries, e.term = u) ∧
      ∃ m₀ m, create ps = .ok m₀ ∧
        (drain (some 2) 4).apply m₀ = (.ok (U.map (Postings.merged ps)), m) := by
  intro ps U
  have hne : ps ≠ [] := by decide
  have hfresh : ∀ p ∈ ps, p.position = 0 := by decide
  have hasc : ∀ p ∈ ps, p.Ascending := by decide
  have hdocs : ∀ p ∈ ps, ∀ e ∈ p.entries, e.docs.length ≤ e.docFreq.toNat := by decide
  have hU : U.Pairwise (· < ·) := by decide
  have hmem : ∀ u, u ∈ U ↔ ∃ p ∈ ps, ∃ e ∈ p.entries, e.term = u := by
    intro u
    simp only [ps, U, List.mem_cons, List.not_mem_nil, or_false, exists_eq_or_imp, exists_eq_left]
    tauto
  obtain ⟨m₀, m, hcreate, hdrain, -⟩ :=
    (merge_union ps U 2 4 hne hfresh hasc hdocs hU hmem (by decide) (by decide)).1
  exact ⟨hne, hfresh, hasc, hdocs, hU, hmem, m₀, m, hcreate, hdrain⟩

/- The two sources share the term 3: it is merged from both, with both document lists. -/
example : [Term.int 1, .int 2, .int 3].map (Postings.merged
    [⟨[⟨.int 1, 1, [0]⟩, ⟨.int 3, 2, [1, 2]⟩], 0, 0⟩, ⟨[⟨.int 2, 1, [5]⟩, ⟨.int 3, 1, [4]⟩], 0, 0⟩]) =
    [⟨.int 1, 1, [0], [(0, [0], 1)]⟩, ⟨.int 2, 1, [1], [(1, [5], 1)]⟩,
      ⟨.int 3, 3, [0, 1], [(0, [1, 2], 2), (1, [4], 1)]⟩] := by
  decide

end TermMerge

end GroupStats
