import GroupStats.Proofs.Merge.Laws
import GroupStats.Proofs.Stream.Simulation

/-!
# The term merge over cursors

A stream merge hands each of its inputs to a term merge as a `Lane`: a term source whose terms
are those its cursor moves to. Here the inputs are any cursors that move as the views of
replays (`Replay.ViewSim`), and a source's view says what it has left.

What source `i` still has to give the merge is its `left`: the terms its view has left while it
is still to advance, the block it is queued with and the terms after it, or nothing once it has
run out. Advancing the pending sources changes none of this. One `next` then gives the merge
of what the sources have left, one least head at a time, exactly as `Merge.terms` does: the
least queued term is the least head, the sources queued with it are those whose head it is,
and they are left pending with the rest of their terms.
-/

namespace GroupStats

open Replay

variable {τ : Type} [Cursor τ] {S : τ → View → Prop} {G : UInt32}

/-! ### Views whose groups are bounded -/

namespace Replay

/-- No group a view stands on or has left is at or above `G`. -/
def View.Below (G : UInt32) (u : View) : Prop :=
  (∀ g ∈ u.groups, g.group < G) ∧ (∀ t ∈ u.terms, ∀ g ∈ t.groups, g.group < G) ∧
    ∀ f ∈ u.fields, ∀ t ∈ f.terms, ∀ g ∈ t.groups, g.group < G

namespace View

variable {u : View}

theorem Below.nextField {f : FieldBlock} {fs : Ftgs} (h : u.Below G) (hu : u.fields = f :: fs) :
    (⟨some f, none, none, [], f.terms, fs⟩ : View).Below G := by
  obtain ⟨-, -, hf⟩ := h
  rw [hu] at hf
  exact ⟨by simp, hf f (List.mem_cons_self ..), fun f' hf' => hf f' (List.mem_cons_of_mem _ hf')⟩

theorem Below.nextTerm {t : TermBlock} {ts : List TermBlock} (h : u.Below G)
    (hu : u.terms = t :: ts) :
    ({ u with term? := some t, group? := none, groups := t.groups, terms := ts } : View).Below G := by
  obtain ⟨-, ht, hf⟩ := h
  rw [hu] at ht
  exact ⟨ht t (List.mem_cons_self ..), fun t' ht' => ht t' (List.mem_cons_of_mem _ ht'), hf⟩

theorem Below.endTerms (h : u.Below G) :
    ({ u with term? := none, group? := none, groups := [], terms := [] } : View).Below G :=
  ⟨by simp, by simp, h.2.2⟩

theorem Below.nextGroup {g : GroupRow} {gs : List GroupRow} (h : u.Below G)
    (hu : u.groups = g :: gs) : ({ u with group? := some g, groups := gs } : View).Below G := by
  obtain ⟨hg, ht, hf⟩ := h
  rw [hu] at hg
  exact ⟨fun g' hg' => hg g' (List.mem_cons_of_mem _ hg'), ht, hf⟩

theorem Below.endGroups (h : u.Below G) : ({ u with group? := none, groups := [] } : View).Below G :=
  ⟨by simp, h.2⟩

end View

end Replay

/-! ### Lanes -/

namespace Lane

omit [Cursor τ] in
@[simp] theorem apply_onInner {α : Type} (x : Step τ α) (l : Lane τ) :
    (onInner x).apply l = ((x.apply l.inner).1, { l with inner := (x.apply l.inner).2 }) := rfl

theorem next_eq : (TermSource.next : Step (Lane τ) Bool) = (do
    let moved ← onInner Cursor.nextTerm
    if moved then modify fun l => { l with term := Cursor.term l.inner }
    return moved) := rfl

@[simp] theorem term_eq (l : Lane τ) : TermSource.term l = l.term := rfl

@[simp] theorem docFreq_eq (l : Lane τ) : TermSource.docFreq l = Cursor.docFreq l.inner := rfl

/-- A lane whose cursor has a term left moves to it and records it. -/
theorem next_cons (hS : ViewSim S) {l : Lane τ} {u : View} {f : FieldBlock} {t : TermBlock}
    {ts : List TermBlock} (hl : S l.inner u) (hf : u.field? = some f) (ht : u.terms = t :: ts) :
    ∃ c, (TermSource.next : Step (Lane τ) Bool).apply l = (.ok true, { inner := c, term := t.term }) ∧
      S c { u with term? := some t, group? := none, groups := t.groups, terms := ts } := by
  obtain ⟨c, hc, hs⟩ := hS.nextTerm_cons hl hf ht
  refine ⟨c, ?_, hs⟩
  rw [next_eq, Step.apply_bind, apply_onInner, hc]
  simp [(hS.term hs rfl).1]

/-- A lane whose cursor has no term left stays where it is and answers no. -/
theorem next_nil (hS : ViewSim S) {l : Lane τ} {u : View} (hl : S l.inner u) (ht : u.terms = []) :
    ∃ c, (TermSource.next : Step (Lane τ) Bool).apply l = (.ok false, { l with inner := c }) ∧
      S c { u with term? := none, group? := none, groups := [], terms := [] } := by
  obtain ⟨c, hc, hs⟩ := hS.nextTerm_nil hl ht
  refine ⟨c, ?_, hs⟩
  rw [next_eq, Step.apply_bind, apply_onInner, hc]
  simp

end Lane

/-- Lanes whose cursors stand at the views `us`, one view for each lane. -/
def Related (S : τ → View → Prop) (lanes : List (Lane τ)) (us : List View) : Prop :=
  lanes.length = us.length ∧
    ∀ (i : Nat) (l : Lane τ) (u : View), lanes[i]? = some l → us[i]? = some u → S l.inner u

omit [Cursor τ] in
theorem Related.set {lanes : List (Lane τ)} {us : List View} (h : Related S lanes us) (i : Nat)
    {l : Lane τ} {u : View} (hs : S l.inner u) : Related S (lanes.set i l) (us.set i u) := by
  refine ⟨by simp [h.1], ?_⟩
  intro j l' u' hl hu
  by_cases hij : i = j
  · subst hij
    rw [List.getElem?_set] at hl hu
    simp only [if_true] at hl hu
    split at hl
    · split at hu
      · cases hl
        cases hu
        exact hs
      · cases hu
    · cases hl
  · rw [List.getElem?_set_ne hij] at hl hu
    exact h.2 j l' u' hl hu

omit [Cursor τ] in
theorem Related.exists_lane {lanes : List (Lane τ)} {us : List View} (h : Related S lanes us)
    {i : Nat} {u : View} (hu : us[i]? = some u) : ∃ l, lanes[i]? = some l ∧ S l.inner u := by
  have hi : i < lanes.length := h.1 ▸ (List.getElem?_eq_some_iff.mp hu).1
  exact ⟨lanes[i], List.getElem?_eq_getElem hi, h.2 i _ u (List.getElem?_eq_getElem hi) hu⟩

namespace TermMerge

/-! ### What the sources have left -/

section Left

variable {σ : Type}

/-- What source `i` of a merge, standing at view `u`, has left to give: the terms the view has
left while the source is still to advance, the block it is queued with and the terms after
it, and nothing once it has run out. -/
def left (m : TermMerge σ) (i : Nat) (u : View) : List TermBlock :=
  if i ∈ m.pending then u.terms
  else if i ∈ m.queued.map (·.2) then u.term?.toList ++ u.terms
  else []

/-- What each source of a merge, standing at the views `us`, has left to give. -/
def lefts (m : TermMerge σ) (us : List View) : List (List TermBlock) :=
  us.mapIdx fun i u => m.left i u

theorem getElem?_lefts (m : TermMerge σ) (us : List View) (i : Nat) :
    (m.lefts us)[i]? = us[i]?.map (m.left i) :=
  List.getElem?_mapIdx

theorem lefts_ext {m m' : TermMerge σ} {us us' : List View} (hl : us'.length = us.length)
    (h : ∀ i u u', us[i]? = some u → us'[i]? = some u' → m'.left i u' = m.left i u) :
    m'.lefts us' = m.lefts us := by
  apply List.ext_getElem?
  intro i
  rw [getElem?_lefts, getElem?_lefts]
  cases hu : us[i]? with
  | none =>
    have : us'[i]? = none := by
      rw [List.getElem?_eq_none_iff] at hu ⊢
      omega
    rw [this]
    rfl
  | some u =>
    obtain ⟨u', hu'⟩ : ∃ u', us'[i]? = some u' := by
      have hi := (List.getElem?_eq_some_iff.mp hu).1
      exact ⟨us'[i], List.getElem?_eq_getElem (by omega)⟩
    rw [hu']
    simp [h i u u' hu hu']

end Left

/-! ### The invariant of a merge -/

/-- The sources of a term merge stand at the views `us`, all on a field and none with a group
at or above `G`. Each source still to advance is listed once, within range; each queued source
is queued once, with the term of the block it stands on, and has all that block's groups left.
A merge that ran out has nothing pending or queued. -/
structure Spans (S : τ → View → Prop) (G : UInt32) (m : TermMerge (Lane τ)) (us : List View) :
    Prop where
  sources : Related S m.sources us
  onField : ∀ u ∈ us, ∃ f, u.field? = some f
  below : ∀ u ∈ us, u.Below G
  pending_nodup : m.pending.Nodup
  pending_lt : ∀ i ∈ m.pending, i < us.length
  queued_nodup : (m.queued.map (·.2)).Nodup
  queued : ∀ e ∈ m.queued, e.2 ∉ m.pending ∧
    ∃ u b, us[e.2]? = some u ∧ u.term? = some b ∧ b.term = e.1 ∧ u.groups = b.groups
  state : m.state = .active ∨ m.state = .exhausted ∧ m.pending = [] ∧ m.queued = []

/-! ### Advancing the pending sources -/

section Advance

variable {m : TermMerge (Lane τ)} {us : List View} {i : Nat} {rest : List Nat} {u : View}

omit [Cursor τ] in
theorem Spans.active (h : Spans S G { m with pending := i :: rest } us) : m.state = .active := by
  rcases h.state with hs | ⟨-, hp, -⟩
  · exact hs
  · cases hp

omit [Cursor τ] in
/-- A pending source that moves onto a block is queued with its term; what every source has
left to give stays as it was. -/
theorem Spans.queue (h : Spans S G { m with pending := i :: rest } us) (hu : us[i]? = some u)
    {t : TermBlock} {ts : List TermBlock} (ht : u.terms = t :: ts) {c : τ}
    (hc : S c { u with term? := some t, group? := none, groups := t.groups, terms := ts }) :
    Spans S G { m with
        sources := m.sources.set i ⟨c, t.term⟩, queued := m.queued ++ [(t.term, i)], pending := rest }
      (us.set i { u with term? := some t, group? := none, groups := t.groups, terms := ts }) ∧
    lefts { m with
        sources := m.sources.set i ⟨c, t.term⟩, queued := m.queued ++ [(t.term, i)], pending := rest }
      (us.set i { u with term? := some t, group? := none, groups := t.groups, terms := ts }) =
      lefts { m with pending := i :: rest } us := by
  have hi : i < us.length := (List.getElem?_eq_some_iff.mp hu).1
  have hnd := List.nodup_cons.mp h.pending_nodup
  have hiq : i ∉ m.queued.map (·.2) := by
    intro hmem
    obtain ⟨e, he, rfl⟩ := List.mem_map.mp hmem
    exact (h.queued e he).1 (List.mem_cons_self ..)
  have hmem : u ∈ us := List.mem_of_getElem? hu
  refine ⟨⟨h.sources.set i hc, ?_, ?_, hnd.2, ?_, ?_, ?_, .inl h.active⟩, ?_⟩
  · intro v hv
    rcases List.mem_or_eq_of_mem_set hv with hv | rfl
    · exact h.onField v hv
    · exact h.onField u hmem
  · intro v hv
    rcases List.mem_or_eq_of_mem_set hv with hv | rfl
    · exact h.below v hv
    · exact (h.below u hmem).nextTerm ht
  · intro j hj
    simpa using h.pending_lt j (List.mem_cons_of_mem _ hj)
  · simp only [List.map_append, List.map_cons, List.map_nil]
    exact List.nodup_append.mpr ⟨h.queued_nodup, by simp,
      fun a ha b hb => by rw [List.mem_singleton.mp hb]; rintro rfl; exact hiq ha⟩
  · intro e he
    rcases List.mem_append.mp he with he | he
    · obtain ⟨hp, v, b, hv, hb⟩ := h.queued e he
      have hne : i ≠ e.2 := fun hie => hp (hie ▸ List.mem_cons_self ..)
      exact ⟨fun hr => hp (List.mem_cons_of_mem _ hr), v, b, by rw [List.getElem?_set_ne hne]; exact hv,
        hb⟩
    · rw [List.mem_singleton.mp he]
      exact ⟨hnd.1, _, t, List.getElem?_set_self hi, rfl, rfl, rfl⟩
  · apply lefts_ext (by simp)
    intro j v v' hv hv'
    by_cases hij : i = j
    · subst hij
      rw [List.getElem?_set_self hi] at hv'
      rw [hu] at hv
      cases hv
      cases hv'
      simp [left, hnd.1, ht]
    · rw [List.getElem?_set_ne hij] at hv'
      rw [hv] at hv'
      cases hv'
      have hj : (j ∈ i :: rest) = (j ∈ rest) := by simp [Ne.symm hij]
      have hq : (j ∈ (m.queued ++ [(t.term, i)]).map (·.2)) = (j ∈ m.queued.map (·.2)) := by
        simp [Ne.symm hij]
      simp only [left, hj, hq]

omit [Cursor τ] in
/-- A pending source that has run out is dropped; what every source has left to give stays as
it was. -/
theorem Spans.drop (h : Spans S G { m with pending := i :: rest } us) (hu : us[i]? = some u)
    (ht : u.terms = []) {l : Lane τ} {c : τ}
    (hc : S c { u with term? := none, group? := none, groups := [], terms := [] }) :
    Spans S G { m with sources := m.sources.set i { l with inner := c }, pending := rest }
      (us.set i { u with term? := none, group? := none, groups := [], terms := [] }) ∧
    lefts { m with sources := m.sources.set i { l with inner := c }, pending := rest }
      (us.set i { u with term? := none, group? := none, groups := [], terms := [] }) =
      lefts { m with pending := i :: rest } us := by
  have hi : i < us.length := (List.getElem?_eq_some_iff.mp hu).1
  have hnd := List.nodup_cons.mp h.pending_nodup
  have hiq : i ∉ m.queued.map (·.2) := by
    intro hmem
    obtain ⟨e, he, rfl⟩ := List.mem_map.mp hmem
    exact (h.queued e he).1 (List.mem_cons_self ..)
  have hmem : u ∈ us := List.mem_of_getElem? hu
  refine ⟨⟨h.sources.set i hc, ?_, ?_, hnd.2, ?_, h.queued_nodup, ?_, .inl h.active⟩, ?_⟩
  · intro v hv
    rcases List.mem_or_eq_of_mem_set hv with hv | rfl
    · exact h.onField v hv
    · exact h.onField u hmem
  · intro v hv
    rcases List.mem_or_eq_of_mem_set hv with hv | rfl
    · exact h.below v hv
    · exact (h.below u hmem).endTerms
  · intro j hj
    simpa using h.pending_lt j (List.mem_cons_of_mem _ hj)
  · intro e he
    obtain ⟨hp, v, b, hv, hb⟩ := h.queued e he
    have hne : i ≠ e.2 := fun hie => hp (hie ▸ List.mem_cons_self ..)
    exact ⟨fun hr => hp (List.mem_cons_of_mem _ hr), v, b, by rw [List.getElem?_set_ne hne]; exact hv,
      hb⟩
  · apply lefts_ext (by simp)
    intro j v v' hv hv'
    by_cases hij : i = j
    · subst hij
      rw [List.getElem?_set_self hi] at hv'
      rw [hu] at hv
      cases hv
      cases hv'
      simp [left, hnd.1, hiq, ht]
    · rw [List.getElem?_set_ne hij] at hv'
      rw [hv] at hv'
      cases hv'
      have hj : (j ∈ i :: rest) = (j ∈ rest) := by simp [Ne.symm hij]
      simp [left, hj]

/-- Replacing one view by a view with the same fields left keeps the fields all views have
left. -/
theorem fields_set {us : List View} {i : Nat} {u u' : View} (hu : us[i]? = some u)
    (h : u'.fields = u.fields) : (us.set i u').map (·.fields) = us.map (·.fields) := by
  apply List.ext_getElem?
  intro j
  rw [List.getElem?_map, List.getElem?_map, List.getElem?_set]
  split
  · rename_i hij
    subst hij
    rw [if_pos (List.getElem?_eq_some_iff.mp hu).1, hu]
    simp [h]
  · rfl

omit [Cursor τ] in
theorem apply_onSource {α : Type} {x : Step (Lane τ) α} {m : TermMerge (Lane τ)} {l : Lane τ}
    (h : m.sources[i]? = some l) :
    (onSource i x).apply m = ((x.apply l).1.map some, { m with sources := m.sources.set i (x.apply l).2 }) := by
  simp [onSource, Step.apply_onIndex h]

/-- Advancing the listed sources, which the merge counts as pending, queues those that reach a
block and drops those that have run out; what every source has left to give stays as it was,
and so do the fields the sources have left. -/
theorem advance_spec (hS : ViewSim S) : ∀ (ps : List Nat) (m : TermMerge (Lane τ)) (us : List View),
    m.pending = [] → Spans S G { m with pending := ps } us →
    ∃ srcs q us', (advance ps).apply m = (.ok (), { m with sources := srcs, queued := q }) ∧
      Spans S G { m with sources := srcs, queued := q } us' ∧
      lefts { m with sources := srcs, queued := q } us' = lefts { m with pending := ps } us ∧
      us'.map (·.fields) = us.map (·.fields)
  | [], m, us, hp, h => by
    obtain ⟨sources, queued, pending, contributors, current, docFreq, state⟩ := m
    simp only at hp
    subst hp
    exact ⟨sources, queued, us, rfl, h, rfl, rfl⟩
  | i :: rest, m, us, hp, h => by
    have hi := h.pending_lt i (List.mem_cons_self ..)
    obtain ⟨u, hu⟩ : ∃ u, us[i]? = some u := ⟨us[i], List.getElem?_eq_getElem hi⟩
    obtain ⟨l, hl, hlu⟩ := h.sources.exists_lane hu
    replace hl : m.sources[i]? = some l := hl
    obtain ⟨f, hf⟩ := h.onField u (List.mem_of_getElem? hu)
    cases ht : u.terms with
    | cons t ts =>
      obtain ⟨c, hc, hs⟩ := Lane.next_cons hS hlu hf ht
      obtain ⟨h', hlefts⟩ := h.queue hu ht hs
      obtain ⟨srcs, q, us', hrun, hsp, hl', hfields⟩ := advance_spec hS rest
        { m with sources := m.sources.set i ⟨c, t.term⟩, queued := m.queued ++ [(t.term, i)] }
        (us.set i { u with term? := some t, group? := none, groups := t.groups, terms := ts }) hp h'
      have hstep : (advance (i :: rest)).apply m = (advance rest).apply
          { m with sources := m.sources.set i ⟨c, t.term⟩, queued := m.queued ++ [(t.term, i)] } := by
        simp [advance, apply_onSource hl, hc, source?, List.getElem?_set_self (h.sources.1 ▸ hi)]
      exact ⟨srcs, q, us', hstep.trans hrun, hsp, hl'.trans hlefts,
        hfields.trans (fields_set hu rfl)⟩
    | nil =>
      obtain ⟨c, hc, hs⟩ := Lane.next_nil hS hlu ht
      obtain ⟨h', hlefts⟩ := h.drop hu ht (l := l) hs
      obtain ⟨srcs, q, us', hrun, hsp, hl', hfields⟩ := advance_spec hS rest
        { m with sources := m.sources.set i { l with inner := c } }
        (us.set i { u with term? := none, group? := none, groups := [], terms := [] }) hp h'
      have hstep : (advance (i :: rest)).apply m =
          (advance rest).apply { m with sources := m.sources.set i { l with inner := c } } := by
        simp [advance, apply_onSource hl, hc]
      exact ⟨srcs, q, us', hstep.trans hrun, hsp, hl'.trans hlefts,
        hfields.trans (fields_set hu rfl)⟩

end Advance

end TermMerge

/-! ### The inputs a merged term comes from -/

/-- The elements a partial function takes from a list, in order, are its values at the
positions where it is defined. -/
theorem filterMap_eq_map_range {α β : Type} [Inhabited β] (g : α → Option β) :
    ∀ l : List α, l.filterMap g =
      ((List.range l.length).filter fun i => (l[i]?.bind g).isSome).map
        fun i => (l[i]?.bind g).getD default
  | [] => rfl
  | a :: l => by
    rw [List.length_cons, List.range_succ_eq_map, List.filter_cons, List.filter_map]
    have ih := filterMap_eq_map_range g l
    cases hg : g a with
    | none => simp [hg, ih, Function.comp_def]
    | some b => simp [hg, ih, Function.comp_def]

/-- Two lists with the same members, the first without repeats and the second ascending, sort
to the second. -/
theorem mergeSort_eq_of_mem_iff {ks ks' : List Nat} (hnd : ks.Nodup)
    (hs : ks'.Pairwise (· < ·)) (h : ∀ i, i ∈ ks ↔ i ∈ ks') : ks.mergeSort (· ≤ ·) = ks' := by
  have hperm : (ks.mergeSort (· ≤ ·)).Perm ks' :=
    (List.mergeSort_perm ks _).trans
      ((List.perm_ext_iff_of_nodup hnd (hs.imp Nat.ne_of_lt)).mpr h)
  have hsorted : (ks.mergeSort (· ≤ ·)).Pairwise (· ≤ ·) :=
    (List.pairwise_mergeSort (fun a b c hab hbc => by simp at *; omega)
      (fun a b => by simp; omega) ks).imp fun hab => by simpa using hab
  exact hperm.eq_of_pairwise (fun a b _ _ hab hba => Nat.le_antisymm hab hba) hsorted
    (hs.imp Nat.le_of_lt)

namespace Merge

/-- The inputs whose head is the term `t`, ascending. -/
def hitIdx (t : Term) (tss : List (List TermBlock)) : List Nat :=
  (List.range tss.length).filter fun i => (tss[i]?.bind fun ts => ts.head?.filter (·.term = t)).isSome

theorem hitIdx_pairwise (t : Term) (tss : List (List TermBlock)) : (hitIdx t tss).Pairwise (· < ·) :=
  List.pairwise_lt_range.filter _

theorem mem_hitIdx {t : Term} {tss : List (List TermBlock)} {i : Nat} :
    i ∈ hitIdx t tss ↔ ∃ b bs, tss[i]? = some (b :: bs) ∧ b.term = t := by
  simp only [hitIdx, List.mem_filter, List.mem_range]
  constructor
  · rintro ⟨hi, hs⟩
    rw [List.getElem?_eq_getElem hi] at hs ⊢
    cases hts : tss[i] with
    | nil => simp [hts] at hs
    | cons b bs =>
      rw [hts] at hs
      exact ⟨b, bs, rfl, by simpa using hs⟩
  · rintro ⟨b, bs, hts, rfl⟩
    exact ⟨(List.getElem?_eq_some_iff.mp hts).1, by simp [hts]⟩

/-- The blocks merged into the term `t` are the heads of the inputs whose head is `t`, in input
order. -/
theorem hits_eq_map (t : Term) (tss : List (List TermBlock)) :
    hits t tss = (hitIdx t tss).map fun i =>
      (tss[i]?.bind fun ts => ts.head?.filter (·.term = t)).getD default :=
  filterMap_eq_map_range _ tss

end Merge

namespace TermMerge

/-! ### One step of the merge -/

section Next

variable {m : TermMerge (Lane τ)} {us : List View}

omit [Cursor τ] in
/-- A queued source stands on the block it is queued with, and has that block and the terms
after it left to give. -/
theorem Spans.lefts_queued (h : Spans S G m us) {e : Term × Nat} (he : e ∈ m.queued) :
    ∃ u b, us[e.2]? = some u ∧ u.term? = some b ∧ b.term = e.1 ∧ u.groups = b.groups ∧
      (m.lefts us)[e.2]? = some (b :: u.terms) := by
  obtain ⟨hp, u, b, hu, hb, hbt, hg⟩ := h.queued e he
  refine ⟨u, b, hu, hb, hbt, hg, ?_⟩
  rw [getElem?_lefts, hu]
  simp [left, hp, hb, List.mem_map.mpr ⟨e, he, rfl⟩]

omit [Cursor τ] in
/-- With nothing pending, the queue holds exactly the heads of what the sources have left. -/
theorem Spans.mem_queued_iff (h : Spans S G m us) (hp : m.pending = []) (e : Term × Nat) :
    e ∈ m.queued ↔ e ∈ Merge.heads (m.lefts us) := by
  rw [Merge.mem_heads]
  constructor
  · intro he
    obtain ⟨u, b, -, -, hbt, -, hF⟩ := h.lefts_queued he
    exact ⟨b, u.terms, hF, hbt⟩
  · rintro ⟨b, bs, hF, hbt⟩
    rw [getElem?_lefts] at hF
    obtain ⟨u, hu, hl⟩ := Option.map_eq_some_iff.mp hF
    simp only [left, hp, List.not_mem_nil, if_false] at hl
    split at hl
    · rename_i hq
      obtain ⟨e', he', hidx⟩ := List.mem_map.mp hq
      obtain ⟨u', b', hu', -, hb't, -, hF'⟩ := h.lefts_queued he'
      rw [hidx, getElem?_lefts, hu] at hF'
      simp only [Option.map_some, Option.some.injEq] at hF'
      simp only [left, hp, List.not_mem_nil, if_false, if_pos hq] at hF'
      rw [hl] at hF'
      cases hF'
      have : e = e' := Prod.ext (hbt.symm.trans hb't) hidx.symm
      exact this ▸ he'
    · cases hl

omit [Cursor τ] in
/-- With nothing pending, a source whose head is `t` is queued with `t`. -/
theorem Spans.mem_hitIdx_iff (h : Spans S G m us) (hp : m.pending = []) {t : Term} {i : Nat} :
    i ∈ Merge.hitIdx t (m.lefts us) ↔ ∃ e ∈ m.queued, e.1 = t ∧ e.2 = i := by
  rw [Merge.mem_hitIdx]
  constructor
  · rintro ⟨b, bs, hF, rfl⟩
    have hmem : (b.term, i) ∈ Merge.heads (m.lefts us) := Merge.mem_heads.mpr ⟨b, bs, hF, rfl⟩
    exact ⟨_, (h.mem_queued_iff hp _).mpr hmem, rfl, rfl⟩
  · rintro ⟨e, he, rfl, rfl⟩
    obtain ⟨b, bs, hF, hb⟩ := Merge.mem_heads.mp ((h.mem_queued_iff hp e).mp he)
    exact ⟨b, bs, hF, hb⟩

omit [Cursor τ] in
/-- The sources queued with `t`, sorted, are the sources whose head is `t`. -/
theorem Spans.sort_hits (h : Spans S G m us) (hp : m.pending = []) (t : Term) :
    ((m.queued.filter fun e => e.1 == t).map (·.2)).mergeSort (· ≤ ·) =
      Merge.hitIdx t (m.lefts us) := by
  apply mergeSort_eq_of_mem_iff
  · exact h.queued_nodup.sublist ((List.filter_sublist).map _)
  · exact Merge.hitIdx_pairwise t _
  · intro i
    rw [h.mem_hitIdx_iff hp]
    simp only [List.mem_map, List.mem_filter, beq_iff_eq]
    constructor
    · rintro ⟨e, ⟨he, rfl⟩, rfl⟩
      exact ⟨e, he, rfl, rfl⟩
    · rintro ⟨e, he, rfl, rfl⟩
      exact ⟨e, ⟨he, rfl⟩, rfl⟩

omit [Cursor τ] in
/-- Choosing the term `t` with nothing pending: the sources whose head is `t` become pending,
the others stay queued, and each source has left what it had, less its head if that was `t`. -/
theorem Spans.choose (h : Spans S G m us) (hp : m.pending = []) (t : Term) (ks : List Nat)
    (c : Option Term) (d : UInt64) :
    Spans S G { m with
        queued := m.queued.filter (not ∘ fun e => e.1 == t), pending := Merge.hitIdx t (m.lefts us),
        contributors := ks, current := c, docFreq := d } us ∧
      lefts { m with
        queued := m.queued.filter (not ∘ fun e => e.1 == t), pending := Merge.hitIdx t (m.lefts us),
        contributors := ks, current := c, docFreq := d } us =
        (m.lefts us).map (Merge.dropHead t) := by
  have hnot : ∀ e ∈ m.queued.filter (not ∘ fun e => e.1 == t), e.1 ≠ t := fun e he => by
    simpa using (List.mem_filter.mp he).2
  have hhit : ∀ e ∈ m.queued.filter (not ∘ fun e => e.1 == t), e.2 ∉ Merge.hitIdx t (m.lefts us) := by
    intro e he hmem
    obtain ⟨e', he', hte', hie'⟩ := (h.mem_hitIdx_iff hp).mp hmem
    -- a source is queued once, so `e` and `e'` are the same entry
    have hq := (List.mem_filter.mp he).1
    have : e' = e := List.inj_on_of_nodup_map h.queued_nodup he' hq hie'
    exact hnot e he (this ▸ hte')
  refine ⟨⟨h.sources, h.onField, h.below, (Merge.hitIdx_pairwise t _).imp Nat.ne_of_lt, ?_,
    h.queued_nodup.sublist ((List.filter_sublist).map _), ?_, ?_⟩, ?_⟩
  · intro i hi
    have := (List.mem_range.mp (List.mem_filter.mp hi).1)
    simpa [lefts] using this
  · intro e he
    exact ⟨hhit e he, (h.queued e (List.mem_filter.mp he).1).2⟩
  · rcases h.state with hs | ⟨hs, -, hq⟩
    · exact .inl hs
    · -- a merge that ran out has nothing queued, so no source has `t` as its head
      have hnil : Merge.hitIdx t (m.lefts us) = [] := List.eq_nil_iff_forall_not_mem.mpr fun i hi => by
        obtain ⟨e, he, -⟩ := (h.mem_hitIdx_iff hp).mp hi
        rw [hq] at he
        cases he
      exact .inr ⟨hs, hnil, by simp [hq]⟩
  · apply List.ext_getElem?
    intro j
    rw [getElem?_lefts, List.getElem?_map, getElem?_lefts]
    cases hu : us[j]? with
    | none => rfl
    | some u =>
      simp only [Option.map_some, Option.some.injEq]
      by_cases hj : j ∈ Merge.hitIdx t (m.lefts us)
      · -- the source gave `t`: it is pending now, with what follows its head
        obtain ⟨e, he, rfl, rfl⟩ := (h.mem_hitIdx_iff hp).mp hj
        obtain ⟨u', b, hu', -, hbt, -, hF⟩ := h.lefts_queued he
        rw [hu] at hu'
        cases hu'
        rw [getElem?_lefts, hu, Option.map_some, Option.some.injEq] at hF
        rw [hF]
        simp [left, hj, Merge.dropHead, hbt]
      · by_cases hq : j ∈ (m.queued.filter (not ∘ fun e => e.1 == t)).map (·.2)
        · -- the source stays queued with a head other than `t`
          obtain ⟨e, he, rfl⟩ := List.mem_map.mp hq
          obtain ⟨u', b, hu', hb, hbt, -, hF⟩ := h.lefts_queued (List.mem_filter.mp he).1
          rw [hu] at hu'
          cases hu'
          rw [getElem?_lefts, hu, Option.map_some, Option.some.injEq] at hF
          rw [hF]
          simp [left, hj, hq, hb, Merge.dropHead, hbt ▸ hnot e he]
        · -- the source had run out
          have hq' : j ∉ m.queued.map (·.2) := by
            rintro hmem
            obtain ⟨e, he, rfl⟩ := List.mem_map.mp hmem
            by_cases het : e.1 = t
            · exact hj ((h.mem_hitIdx_iff hp).mpr ⟨e, he, het, rfl⟩)
            · exact hq (List.mem_map.mpr ⟨e, List.mem_filter.mpr ⟨he, by simpa using het⟩, rfl⟩)
          simp [left, hj, hq, hq', hp, Merge.dropHead]

omit [Cursor τ] in
/-- A source whose head is `t` stands on its block of `t`, with all its groups left. -/
theorem Spans.hit_block (h : Spans S G m us) (hp : m.pending = []) {t : Term} {i : Nat}
    (hi : i ∈ Merge.hitIdx t (m.lefts us)) :
    ∃ u b l, us[i]? = some u ∧ u.term? = some b ∧ u.groups = b.groups ∧
      ((m.lefts us)[i]?.bind fun ts => ts.head?.filter (·.term = t)).getD default = b ∧
      m.sources[i]? = some l ∧ S l.inner u := by
  obtain ⟨e, he, rfl, rfl⟩ := (h.mem_hitIdx_iff hp).mp hi
  obtain ⟨u, b, hu, hb, hbt, hg, hF⟩ := h.lefts_queued he
  obtain ⟨l, hl, hlu⟩ := h.sources.exists_lane hu
  exact ⟨u, b, l, hu, hb, hg, by simp [hF, Option.filter, hbt], hl, hlu⟩

/-- The summed frequency the merge computes over the sources whose head is `t` is that of the
merged blocks. -/
theorem Spans.freq_hits (hS : ViewSim S) (h : Spans S G m us) (hp : m.pending = []) (t : Term) :
    (Merge.hitIdx t (m.lefts us)).foldl (fun acc i => acc + m.freqOf i) 0 =
      (Merge.hits t (m.lefts us)).foldl (fun acc b => acc + b.docFreq) 0 := by
  have hfreq : ∀ i ∈ Merge.hitIdx t (m.lefts us), m.freqOf i =
      (((m.lefts us)[i]?.bind fun ts => ts.head?.filter (·.term = t)).getD default).docFreq := by
    intro i hi
    obtain ⟨u, b, l, -, hb, -, hblock, hl, hlu⟩ := h.hit_block hp hi
    simp only [hblock, freqOf, source?, hl, Option.map_some, Option.getD_some, Lane.docFreq_eq]
    exact (hS.term hlu hb).2
  -- both sides sum the same frequencies over the same sources
  have := congrArg (List.foldl (· + ·) (0 : UInt64)) (List.map_congr_left hfreq)
  simpa only [Merge.hits_eq_map, List.foldl_map] using this

omit [Cursor τ] in
/-- The groups merged into `t` are those the sources whose head is `t` have left, in source
order. -/
theorem Spans.groups_hits (h : Spans S G m us) (hp : m.pending = []) (t : Term) :
    (Merge.hits t (m.lefts us)).map (·.groups) =
      (Merge.hitIdx t (m.lefts us)).map fun i => ((us[i]?).map (·.groups)).getD [] := by
  rw [Merge.hits_eq_map, List.map_map]
  apply List.map_congr_left
  intro i hi
  obtain ⟨u, b, l, hu, -, hg, hblock, -⟩ := h.hit_block hp hi
  simp only [Function.comp_apply, hblock, hu, Option.map_some, Option.getD_some, hg]

omit [Cursor τ] in
theorem Spans.terminate (h : Spans S G m us) : Spans S G m.terminate us :=
  ⟨h.sources, h.onField, h.below, List.nodup_nil, by simp [TermMerge.terminate],
    by simp [TermMerge.terminate], by simp [TermMerge.terminate], .inr ⟨rfl, rfl, rfl⟩⟩

/-- With nothing pending or queued, no source has anything left. -/
theorem lefts_of_idle {σ : Type} {m : TermMerge σ} (us : List View) (hp : m.pending = [])
    (hq : m.queued = []) : ∀ ts ∈ m.lefts us, ts = [] := by
  intro ts hts
  obtain ⟨i, hi⟩ := List.mem_iff_getElem?.mp hts
  rw [getElem?_lefts] at hi
  obtain ⟨u, -, rfl⟩ := Option.map_eq_some_iff.mp hi
  simp [left, hp, hq]

theorem least_lefts_of_idle {σ : Type} {m : TermMerge σ} (us : List View) (hp : m.pending = [])
    (hq : m.queued = []) : least (Merge.heads (m.lefts us)) = none :=
  least_eq_none.mpr (Merge.heads_eq_nil_iff.mpr (lefts_of_idle us hp hq))

/-- When the sources have no term left, the merge ends and says so. -/
theorem next_nil (hS : ViewSim S) (h : Spans S G m us) {n : Nat}
    (hend : Merge.terms n (m.lefts us) = []) :
    ∃ m' us', next.apply m = (.ok false, m') ∧ Spans S G m' us' ∧ (∀ ts ∈ m'.lefts us', ts = []) ∧
      us'.map (·.fields) = us.map (·.fields) := by
  have hnone : least (Merge.heads (m.lefts us)) = none := by
    cases he : least (Merge.heads (m.lefts us)) with
    | none => rfl
    | some e => rw [Merge.terms_of_least_some he] at hend; cases hend
  rcases h.state with hact | ⟨hex, hp, hq⟩
  · obtain ⟨srcs, q, us', hrun, hsp, hlefts, hfields⟩ :=
      advance_spec hS m.pending { m with pending := [] } us rfl h
    have hleast : least q = none :=
      (Merge.least_congr (hsp.mem_queued_iff rfl)).trans (by rw [hlefts]; exact hnone)
    obtain ⟨sources, queued, pending, contributors, current, docFreq, state⟩ := m
    simp only at hact hrun
    subst hact
    refine ⟨_, us', ?_, hsp.terminate, lefts_of_idle us' rfl rfl, hfields⟩
    simp only [next, Step.apply_bind, Step.apply_get, Step.apply_modify, Step.apply_attempt, hrun,
      hleast]
    rfl
  · refine ⟨m, us, ?_, h, lefts_of_idle us hp hq, rfl⟩
    simp [next, hex]

/-- When the sources have terms left, the merge moves to the first merged block: its term, its
summed frequency, and as contributors the sources whose head it is, in order, whose groups are
the block's; what is left to merge is the rest. -/
theorem next_cons (hS : ViewSim S) (h : Spans S G m us) {n : Nat} {B : TermBlock}
    {rest : List TermBlock} (hterms : Merge.terms n (m.lefts us) = B :: rest) :
    ∃ m' us', next.apply m = (.ok true, m') ∧ Spans S G m' us' ∧
      Merge.terms n (m'.lefts us') = rest ∧ m'.current = some B.term ∧ m'.docFreq = B.docFreq ∧
      m'.contributors = m'.pending ∧
      B.groups = Merge.groups n (m'.contributors.map fun i => ((us'[i]?).map (·.groups)).getD []) ∧
      us'.map (·.fields) = us.map (·.fields) := by
  obtain ⟨⟨t, j⟩, he⟩ : ∃ e, least (Merge.heads (m.lefts us)) = some e := by
    cases he : least (Merge.heads (m.lefts us)) with
    | none => rw [Merge.terms_of_least_none he] at hterms; cases hterms
    | some e => exact ⟨e, rfl⟩
  rw [Merge.terms_of_least_some he, List.cons.injEq] at hterms
  obtain ⟨rfl, rfl⟩ := hterms
  have hact : m.state = .active := by
    rcases h.state with hact | ⟨-, hp, hq⟩
    · exact hact
    · rw [least_lefts_of_idle us hp hq] at he; cases he
  obtain ⟨srcs, q, us', hrun, hsp, hlefts, hfields⟩ :=
    advance_spec hS m.pending { m with pending := [] } us rfl h
  have hleast : least q = some (t, j) :=
    (Merge.least_congr (hsp.mem_queued_iff rfl)).trans (by rw [hlefts]; exact he)
  have hsort := hsp.sort_hits rfl t
  have hfreq := hsp.freq_hits hS rfl t
  have hgroups := hsp.groups_hits rfl t
  obtain ⟨hsp', hlefts'⟩ := hsp.choose rfl t (Merge.hitIdx t (m.lefts us)) (some t)
    (Merge.block n t (Merge.hits t (m.lefts us))).docFreq
  rw [hlefts] at hsort hfreq hgroups hsp' hlefts'
  refine ⟨_, us', ?_, hsp', by rw [hlefts'], rfl, rfl, rfl, ?_, hfields⟩
  · obtain ⟨sources, queued, pending, contributors, current, docFreq, state⟩ := m
    simp only at hact hrun hsort hfreq
    subst hact
    simp only [next, Step.apply_bind, Step.apply_get, Step.apply_modify, Step.apply_attempt,
      Step.apply_set, Step.apply_pure, hrun, hleast, List.partition_eq_filter_filter, hsort, hfreq]
    rfl
  · exact congrArg (Merge.groups n) hgroups

end Next

end TermMerge

end GroupStats
