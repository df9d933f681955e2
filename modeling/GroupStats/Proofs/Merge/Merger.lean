import GroupStats.Proofs.Merge.Lanes
import GroupStats.Proofs.Group.Tally

/-!
# The stream merge

A stream merge over inputs that move as views of streams moves as the view of their merged
stream, `Merge.fields`. `Merger.Holds` ties a merge to the views its inputs stand at and to the
view of the merged stream it stands at, and every advance keeps it: moving to a field moves
every input and checks that they agree, moving to a term lets the term merge choose the least
term and sums the groups its contributors send, and moving to a group walks those sums. So a
merge read to its end gives the merged stream.
-/

namespace GroupStats

open Replay

variable {τ : Type} [Cursor τ] {S : τ → View → Prop}

namespace Replay.View

/-- A view at the start of the stream `v`. -/
def start (v : Ftgs) : View := ⟨none, none, none, [], [], v⟩

/-- A view after moving to the next field, or past the last one. -/
def nextField (u : View) : View :=
  match u.fields with
  | f :: fs => ⟨some f, none, none, [], f.terms, fs⟩
  | [] => ⟨none, none, none, [], [], []⟩

/-- A view after its term gave all its groups. -/
def drained (u : View) : View := { u with group? := none, groups := [] }

@[simp] theorem fields_nextField (u : View) : u.nextField.fields = u.fields.tail := by
  unfold nextField; split <;> simp_all

@[simp] theorem terms_nextField (u : View) : u.nextField.terms = Merge.firstTerms u.fields := by
  unfold nextField; split <;> simp_all [Merge.firstTerms]

theorem Below.nextField' {G : UInt32} {u : View} (h : u.Below G) : u.nextField.Below G := by
  unfold View.nextField
  split
  · exact h.nextField ‹_›
  · exact ⟨by simp, by simp, by simp⟩

theorem Below.drained {G : UInt32} {u : View} (h : u.Below G) : u.drained.Below G :=
  h.endGroups

theorem Below.mono {G G' : UInt32} {u : View} (h : u.Below G) (hle : G ≤ G') : u.Below G' :=
  ⟨fun g hg => UInt32.lt_of_lt_of_le (h.1 g hg) hle,
    fun t ht g hg => UInt32.lt_of_lt_of_le (h.2.1 t ht g hg) hle,
    fun f hf t ht g hg => UInt32.lt_of_lt_of_le (h.2.2 f hf t ht g hg) hle⟩

end Replay.View

/-! ### Lanes moving to a field -/

namespace Lane

/-- A lane moving to its next field reports whether its view had one, stands where the view
moves to, and shows that field. -/
theorem nextField_view (hS : ViewSim S) {l : Lane τ} {u : View} (hl : S l.inner u) :
    ((onInner Cursor.nextField).apply l).1 = .ok !u.fields.isEmpty ∧
      S ((onInner Cursor.nextField).apply l).2.inner u.nextField ∧
      ∀ f ∈ u.fields.head?, Cursor.field ((onInner Cursor.nextField).apply l).2.inner = f.field := by
  cases hf : u.fields with
  | nil =>
    obtain ⟨c, hc, hrel⟩ := hS.nextField_nil hl hf
    simp [hc, View.nextField, hf, hrel]
  | cons f fs =>
    obtain ⟨c, hc, hrel⟩ := hS.nextField_cons hl hf
    simp [hc, View.nextField, hf, hrel, hS.field hrel rfl]

end Lane

section Related

variable {lanes : List (Lane τ)} {us : List View}

omit [Cursor τ] in
theorem Related.forall_zip (h : Related S lanes us) : ∀ p ∈ lanes.zip us, S p.1.inner p.2 := by
  intro p hp
  obtain ⟨i, hi⟩ := List.mem_iff_getElem?.mp hp
  rw [List.getElem?_zip_eq_some] at hi
  exact h.2 i p.1 p.2 hi.1 hi.2

omit [Cursor τ] in
/-- Related lanes and views give the same list under maps that agree on related pairs. -/
theorem Related.map_eq (h : Related S lanes us) {α : Type} {g : Lane τ → α} {g' : View → α}
    (hg : ∀ l u, S l.inner u → g l = g' u) : lanes.map g = us.map g' := by
  apply List.ext_getElem?
  intro i
  rw [List.getElem?_map, List.getElem?_map]
  cases hu : us[i]? with
  | none =>
    have : lanes[i]? = none := by
      rw [List.getElem?_eq_none_iff] at hu ⊢
      exact h.1 ▸ hu
    rw [this]; rfl
  | some u =>
    obtain ⟨l, hl, hlu⟩ := h.exists_lane hu
    rw [hl]
    exact congrArg some (hg l u hlu)

omit [Cursor τ] in
/-- Maps that keep related pairs related keep lanes and views related. -/
theorem Related.map (h : Related S lanes us) {F : Lane τ → Lane τ} {F' : View → View}
    (hF : ∀ l u, S l.inner u → S (F l).inner (F' u)) : Related S (lanes.map F) (us.map F') := by
  refine ⟨by simp [h.1], ?_⟩
  intro i l u hl hu
  rw [List.getElem?_map, Option.map_eq_some_iff] at hl hu
  obtain ⟨l₀, hl₀, rfl⟩ := hl
  obtain ⟨u₀, hu₀, rfl⟩ := hu
  exact hF l₀ u₀ (h.2 i l₀ u₀ hl₀ hu₀)

/-- Moving every lane to its next field: each reports whether its view had one, and the lanes
stand where their views move to. -/
theorem Related.nextField (hS : ViewSim S) (h : Related S lanes us) :
    (Step.onEach (Step.attempt (Lane.onInner Cursor.nextField))).apply lanes =
      (.ok (us.map fun u => .ok !u.fields.isEmpty),
        lanes.map fun l => ((Lane.onInner Cursor.nextField).apply l).2) ∧
      Related S (lanes.map fun l => ((Lane.onInner Cursor.nextField).apply l).2)
        (us.map View.nextField) := by
  refine ⟨?_, h.map fun l u hlu => (Lane.nextField_view hS hlu).2.1⟩
  rw [Step.apply_onEach_attempt, h.map_eq fun l u hlu => (Lane.nextField_view hS hlu).1]

end Related

namespace Merge

/-- When aligned streams merge to a field, each of them stands before a field of that name,
and the merged field holds the merge of their next terms. -/
theorem fields_eq_cons {n : Nat} {vs : List Ftgs} (hne : vs ≠ []) (ha : Aligned vs)
    {F : FieldBlock} {FS : Ftgs} (h : fields n vs = F :: FS) :
    (∀ v ∈ vs, ∃ f fs, v = f :: fs ∧ f.field = F.field) ∧ F.terms = terms n (vs.map firstTerms) ∧
      FS = fields n (vs.map List.tail) := by
  obtain ⟨v₀, vs', rfl⟩ := List.exists_cons_of_ne_nil hne
  rcases v₀ with _ | ⟨f₀, r₀⟩
  · rw [fields_nil_cons] at h
    cases h
  · rw [fields_of_cons rfl, List.cons.injEq] at h
    obtain ⟨rfl, rfl⟩ := h
    refine ⟨fun v hv => ?_, rfl, rfl⟩
    -- aligned streams have the same field names, so `v` has one where the first has
    have hmap := ha v hv (f₀ :: r₀) (List.mem_cons_self ..)
    rcases v with _ | ⟨f, fs⟩
    · cases hmap
    · rw [List.map_cons, List.map_cons, List.cons.injEq] at hmap
      exact ⟨f, fs, rfl, hmap.1⟩

/-- When aligned streams merge to nothing, all of them have run out. -/
theorem fields_eq_nil {n : Nat} {vs : List Ftgs} (hne : vs ≠ []) (ha : Aligned vs)
    (h : fields n vs = []) : ∀ v ∈ vs, v = [] := by
  obtain ⟨v₀, vs', rfl⟩ := List.exists_cons_of_ne_nil hne
  rcases v₀ with _ | ⟨f₀, r₀⟩
  · exact ha.nil_of_nil (List.mem_cons_self ..) rfl
  · rw [fields_of_cons rfl] at h
    cases h

end Merge

namespace TermMerge

omit [Cursor τ] in
theorem create_of_ne_nil {sources : List (Lane τ)} (h : sources ≠ []) :
    create sources = .ok { sources, pending := List.range sources.length } := by
  simp [create, h]

omit [Cursor τ] in
/-- A fresh merge over lanes on a field spans them, each still to advance. -/
theorem Spans.create {G : UInt32} {lanes : List (Lane τ)} {us : List View}
    (hrel : Related S lanes us) (hon : ∀ u ∈ us, ∃ f, u.field? = some f)
    (hb : ∀ u ∈ us, u.Below G) :
    Spans S G { sources := lanes, pending := List.range lanes.length } us :=
  ⟨hrel, hon, hb, List.nodup_range, fun i hi => hrel.1 ▸ List.mem_range.mp hi, by simp, by simp,
    .inl rfl⟩

omit [Cursor τ] in
/-- A fresh merge has left, of each source, the terms its view has left. -/
theorem lefts_create {lanes : List (Lane τ)} {us : List View} (hlen : lanes.length = us.length) :
    lefts ({ sources := lanes, pending := List.range lanes.length } : TermMerge (Lane τ)) us =
      us.map (·.terms) := by
  apply List.ext_getElem?
  intro i
  rw [getElem?_lefts, List.getElem?_map]
  cases hu : us[i]? with
  | none => rfl
  | some u =>
    have hi : i < lanes.length := hlen ▸ (List.getElem?_eq_some_iff.mp hu).1
    simp [left, hi]

end TermMerge

/-! ### Sums and trackers -/

theorem Merge.mem_distinct {g : GroupId} (gs : List GroupId) : g ∈ Merge.distinct gs ↔ g ∈ gs := by
  unfold Merge.distinct
  -- the ids kept so far and those still to come hold the same ids as the list
  suffices h : ∀ acc : List GroupId,
      g ∈ gs.foldl (fun acc g => if g ∈ acc then acc else acc ++ [g]) acc ↔ g ∈ acc ∨ g ∈ gs by
    simpa using h []
  induction gs with
  | nil => simp
  | cons x xs ih =>
    intro acc
    rw [List.foldl_cons, ih]
    by_cases hx : x ∈ acc
    · rw [if_pos hx]
      constructor
      · rintro (h | h)
        · exact .inl h
        · exact .inr (List.mem_cons_of_mem _ h)
      · rintro (h | h)
        · exact .inl h
        · rcases List.mem_cons.mp h with rfl | h
          · exact .inl hx
          · exact .inr h
    · rw [if_neg hx]
      simp only [List.mem_append, List.mem_cons]
      tauto

theorem Totals.mem_rows_foldl {t : Totals} {rs : List GroupRow} {r : GroupId × List Int64}
    (hr : r ∈ (rs.foldl (fun t r => t.add r.group r.stats) t).rows) :
    r.1 ∈ rs.map (·.group) ∨ r ∈ t.rows := by
  induction rs generalizing t with
  | nil => exact .inr hr
  | cons x xs ih =>
    rcases ih hr with h | h
    · exact .inl (List.mem_cons_of_mem _ h)
    · rcases Totals.mem_rows_add _ _ _ h with h | h
      · exact .inl (h ▸ List.mem_cons_self ..)
      · exact .inr h

/-- A tracker that took the ids `gs` from empty is valid and ordered, and sorted it lists each
id once, ascending. -/
theorem SeenGroups.foldl_insert_empty (c : Nat) (gs : List GroupId) :
    (gs.foldl SeenGroups.insert (SeenGroups.empty c)).Valid ∧
      (gs.foldl SeenGroups.insert (SeenGroups.empty c)).Ordered ∧
      (gs.foldl SeenGroups.insert (SeenGroups.empty c)).sorted =
        (Merge.distinct gs).mergeSort (· ≤ ·) := by
  obtain ⟨hv, ho, hl⟩ := SeenGroups.foldl_insert (SeenGroups.valid_empty c) (SeenGroups.ordered_empty c) gs
  refine ⟨hv, ho, ?_⟩
  rw [SeenGroups.sorted_eq ho, hl]
  rfl

/-! ### How large the merge is -/

theorem Ftgs.Bounded.tail {k : Nat} {v : Ftgs} (h : v.Bounded k) : Ftgs.Bounded k v.tail :=
  ⟨Nat.le_trans (by simp) h.1, fun f hf => h.2 f (List.mem_of_mem_tail hf)⟩

theorem Ftgs.Bounded.firstTerms {k : Nat} {v : Ftgs} (h : v.Bounded k) :
    (Merge.firstTerms v).length ≤ k ∧ ∀ b ∈ Merge.firstTerms v, b.groups.length ≤ k := by
  cases v with
  | nil => simp [Merge.firstTerms]
  | cons f fs => exact h.2 f (List.mem_cons_self ..)

namespace Merge

open TermMerge

theorem length_distinct_le (gs : List GroupId) : (distinct gs).length ≤ gs.length := by
  unfold distinct
  -- each id adds at most one to what is kept
  suffices h : ∀ acc : List GroupId,
      (gs.foldl (fun acc g => if g ∈ acc then acc else acc ++ [g]) acc).length ≤
        acc.length + gs.length by
    simpa using h []
  induction gs with
  | nil => simp
  | cons g gs ih =>
    intro acc
    rw [List.foldl_cons]
    refine Nat.le_trans (ih _) ?_
    split
    · simp
    · simp only [List.length_append, List.length_cons, List.length_nil]
      omega

/-- Merging groups gives no more rows than the inputs have together. -/
theorem length_groups_le (n : Nat) (gss : List (List GroupRow)) :
    (groups n gss).length ≤ (gss.map List.length).sum := by
  simp only [groups, List.length_map, List.length_mergeSort]
  calc (distinct (gss.flatten.map (·.group))).length
      ≤ (gss.flatten.map (·.group)).length := length_distinct_le _
    _ = (gss.map List.length).sum := by rw [List.length_map, List.length_flatten]

/-- Merging terms gives no more terms than the inputs have together. -/
theorem length_terms_le (n : Nat) (tss : List (List TermBlock)) :
    (terms n tss).length ≤ (tss.map List.length).sum := by
  induction tss using terms_induction with
  | none tss he => simp [terms_of_least_none he]
  | some tss e he ih =>
    rw [terms_of_least_some he, List.length_cons]
    have := sum_dropHead_lt (heads_least_drops he)
    omega

theorem mem_of_mem_dropHead {t : Term} {b : TermBlock} {ts : List TermBlock}
    (h : b ∈ dropHead t ts) : b ∈ ts := by
  cases ts with
  | nil => cases h
  | cons c cs =>
    simp only [dropHead] at h
    split at h
    · exact List.mem_cons_of_mem _ h
    · exact h

/-- The groups of the blocks an input list holds as heads of `t` add up to no more than the
bounds of those inputs. -/
theorem sum_hits_le (t : Term) {tss : List (List TermBlock)} {cs : List Nat}
    (h : List.Forall₂ (fun ts c => ∀ b ∈ ts, b.groups.length ≤ c) tss cs) :
    ((hits t tss).map fun b => b.groups.length).sum ≤ cs.sum := by
  induction h with
  | nil => simp [hits]
  | @cons ts c tss cs hc _ ih =>
    simp only [hits, List.filterMap_cons] at ih ⊢
    cases hb : ts.head?.filter (·.term = t) with
    | none => simpa using Nat.le_add_left_of_le ih
    | some b =>
      have hmem : b ∈ ts := List.mem_of_mem_head? (Option.eq_some_of_filter_eq_some hb)
      simp only [List.map_cons, List.sum_cons]
      exact Nat.add_le_add (hc b hmem) ih

/-- Each merged term has no more groups than the bounds on the inputs' terms add up to. -/
theorem groups_le_of_mem_terms (n : Nat) {cs : List Nat} (tss : List (List TermBlock))
    (h : List.Forall₂ (fun ts c => ∀ b ∈ ts, b.groups.length ≤ c) tss cs) :
    ∀ B ∈ terms n tss, B.groups.length ≤ cs.sum := by
  induction tss using terms_induction with
  | none tss he => simp [terms_of_least_none he]
  | some tss e he ih =>
    rw [terms_of_least_some he]
    rintro B (_ | ⟨_, hB⟩)
    · calc (groups n ((hits e.1 tss).map (·.groups))).length
          ≤ (((hits e.1 tss).map (·.groups)).map List.length).sum := length_groups_le n _
        _ ≤ cs.sum := by simpa [List.map_map, Function.comp_def] using sum_hits_le e.1 h
    · -- dropping heads keeps every bound
      refine ih ?_ B hB
      exact List.forall₂_map_left_iff.mpr
        (h.imp fun ts c hc b hb => hc b (mem_of_mem_dropHead hb))

/-- The merge has no more fields than the first stream. -/
theorem length_fields_le (n : Nat) (vs : List Ftgs) :
    (fields n vs).length ≤ (vs.head?.map List.length).getD 0 := by
  fun_induction fields n vs with
  | case1 vs h => simp
  | case2 vs f h ih =>
    simp only [List.map_attach_eq_pmap, List.pmap_eq_map] at ih
    -- the first stream stands before a field, which the merge takes
    obtain ⟨_ | ⟨f', r⟩, vs', rfl⟩ : ∃ v vs', vs = v :: vs' := by
      cases vs with
      | nil => cases h
      | cons v vs' => exact ⟨v, vs', rfl⟩
    · cases h
    · simp only [List.map_cons, List.head?_cons, Option.map_some, Option.getD_some,
        List.tail_cons, List.length_cons] at ih ⊢
      omega

/-- Streams that visit the same fields, none with a level longer than its bound, merge to a
stream with no level longer than the bounds added up. -/
theorem bounded_fields (n : Nat) {vs : List Ftgs} {bs : List Nat}
    (h : List.Forall₂ (fun v b => v.Bounded b) vs bs) (hne : vs ≠ []) :
    (fields n vs).Bounded bs.sum := by
  refine ⟨?_, ?_⟩
  · -- as many fields as the first stream, whose count is within its bound
    obtain ⟨v, vs', rfl⟩ := List.exists_cons_of_ne_nil hne
    obtain ⟨b, bs', rfl⟩ : ∃ b bs', bs = b :: bs' := by
      cases h with
      | cons hb _ => exact ⟨_, _, rfl⟩
    have hv := (List.forall₂_cons.mp h).1
    have := length_fields_le n (v :: vs')
    simp only [List.head?_cons, Option.map_some, Option.getD_some, List.sum_cons] at this ⊢
    have := hv.1
    omega
  · clear hne
    fun_induction fields n vs with
    | case1 vs hnone => simp
    | case2 vs f hsome ih =>
      simp only [List.map_attach_eq_pmap, List.pmap_eq_map] at ih
      rintro F (_ | ⟨_, hF⟩)
      · -- the merged field: its terms and their groups are within the summed bounds
        have hfirst : List.Forall₂ (fun ts c => ts.length ≤ c ∧ ∀ b ∈ ts, b.groups.length ≤ c)
            (vs.map firstTerms) bs :=
          List.forall₂_map_left_iff.mpr (h.imp fun v c hv => hv.firstTerms)
        refine ⟨Nat.le_trans (length_terms_le n _) ?_,
          groups_le_of_mem_terms n _ (hfirst.imp fun ts c hc => hc.2)⟩
        exact List.Forall₂.sum_le_sum (List.forall₂_map_left_iff.mpr (hfirst.imp fun ts c hc => hc.1))
      · exact ih (List.forall₂_map_left_iff.mpr (h.imp fun v c hv => hv.tail)) F hF

end Merge

namespace Merger

/-! ### Agreeing on a field -/

/-- Inputs that all reached the field `f` agree on it. -/
theorem agree_of_fields {lanes : List (Lane τ)} {outcomes : List (Except Error Bool)} {f : Field}
    (hne : lanes.zip outcomes ≠ [])
    (h : ∀ p ∈ lanes.zip outcomes, p.2 = .ok true ∧ Cursor.field p.1.inner = f) :
    agree lanes outcomes = .ok (some f) := by
  unfold agree
  extract_lets step
  -- once the first input gave `f`, every later one that gives `f` only moves the index
  have key : ∀ (xs : List (Lane τ × Except Error Bool)) (i : Nat),
      (∀ p ∈ xs, p.2 = .ok true ∧ Cursor.field p.1.inner = f) →
      xs.foldl step (some f, 0, none, i) = (some f, 0, none, i + xs.length) := by
    intro xs
    induction xs with
    | nil => intro i _; rfl
    | cons p xs ih =>
      intro i hp
      obtain ⟨hok, hf⟩ := hp p (by simp)
      have hstep : step (some f, 0, none, i) p = (some f, 0, none, i + 1) := by
        simp [step, hok, hf]
      rw [List.foldl_cons, hstep, ih (i + 1) fun q hq => hp q (by simp [hq]), List.length_cons,
        Nat.add_assoc, Nat.add_comm 1]
  obtain ⟨p, ps, hps⟩ := List.exists_cons_of_ne_nil hne
  obtain ⟨hok, hf⟩ := h p (by simp [hps])
  have hfirst : step (none, 0, none, 0) p = (some f, 0, none, 1) := by
    simp [step, hok, hf]
  rw [hps, List.foldl_cons, hfirst, key ps 1 fun q hq => h q (by simp [hps, hq])]
  rfl

/-- Inputs that all ended agree that the stream ended. -/
theorem agree_of_ended {lanes : List (Lane τ)} {outcomes : List (Except Error Bool)}
    (hlen : outcomes.length = lanes.length) (h : ∀ o ∈ outcomes, o = .ok false) :
    agree lanes outcomes = .ok none := by
  unfold agree
  extract_lets step
  -- every input counts as ended and none as failed
  have key : ∀ (xs : List (Lane τ × Except Error Bool)) (k : Nat), (∀ p ∈ xs, p.2 = .ok false) →
      xs.foldl step (none, k, none, k) = (none, k + xs.length, none, k + xs.length) := by
    intro xs
    induction xs with
    | nil => intro k _; rfl
    | cons p xs ih =>
      intro k hp
      have hstep : step (none, k, none, k) p = (none, k + 1, none, k + 1) := by
        simp [step, hp p (by simp)]
      rw [List.foldl_cons, hstep, ih (k + 1) fun q hq => hp q (by simp [hq]), List.length_cons]
      simp only [Nat.add_assoc, Nat.add_comm 1]
  rw [key _ 0 fun p hp => h p.2 (List.of_mem_zip hp).2]
  simp [List.length_zip, hlen]

/-! ### The invariant -/

/-- The rows the merge gives for the current term: its groups with their totals. -/
def rows (m : Merger τ) : List GroupRow := m.groups.map fun g => ⟨g, m.totals.row g m.numStats⟩

/-- A stream merge whose inputs stand at the views `us` stands where the view `w` of their merged
stream stands: the inputs visit the same fields and merge to what `w` has left, and the totals,
groups seen and rows from the group position on are those of `w`'s current term. -/
structure Holds (S : τ → View → Prop) (m : Merger τ) (us : List View) (w : View) : Prop where
  isOpen : m.closed = false
  nonempty : us ≠ []
  aligned : Merge.Aligned (us.map (·.fields))
  below : ∀ u ∈ us, u.Below m.numGroups
  fields : w.fields = Merge.fields m.numStats (us.map (·.fields))
  stage : (∃ lanes, m.stage = .idle lanes ∧ Related S lanes us ∧ w.terms = []) ∨
    ∃ merge, m.stage = .merging merge ∧ TermMerge.Spans S m.numGroups merge us ∧
      w.terms = Merge.terms m.numStats (merge.lefts us)
  field : ∀ f, w.field? = some f → m.field = f.field
  term : ∀ t, w.term? = some t → ∃ merge, m.stage = .merging merge ∧
    merge.current = some t.term ∧ merge.docFreq = t.docFreq
  groups : w.groups = (rows m).drop m.groupPos
  group : ∀ g, w.group? = some g → (rows m)[m.groupPos - 1]? = some g
  seen : m.seen.Valid ∧ m.seen.Ordered ∧ m.seen.list = m.groups
  totals : ∀ r ∈ m.totals.rows, r.1 ∈ m.groups

/-- The merge stands where the view `w` of its inputs' merged stream stands. -/
def Shows (S : τ → View → Prop) (m : Merger τ) (w : View) : Prop := ∃ us, Holds S m us w

section Steps

variable {m : Merger τ} {us : List View} {w : View}

omit [Cursor τ] in
theorem Holds.lanes (h : Holds S m us w) : Related S m.lanes us := by
  rcases h.stage with ⟨lanes, hst, hrel, -⟩ | ⟨merge, hst, hsp, -⟩
  · simpa [Merger.lanes, hst] using hrel
  · simpa [Merger.lanes, hst] using hsp.sources

omit [Cursor τ] in
@[simp] theorem lanes_resetTerm (m : Merger τ) : m.resetTerm.lanes = m.lanes := rfl

omit [Cursor τ] in
/-- Clearing what the current term left gives empty totals and an empty tracker. -/
theorem Holds.resetTerm_eq (h : Holds S m us w) :
    m.resetTerm = { m with totals := {}, groups := [], seen := SeenGroups.empty m.seen.capacity,
                           groupPos := 0 } := by
  simp only [resetTerm, Totals.reset_of_rows _ h.totals, SeenGroups.clear_eq h.seen.1]

omit [Cursor τ] in
theorem Holds.nextGroup_cons (h : Holds S m us w) {g : GroupRow} {gs : List GroupRow}
    (hw : w.groups = g :: gs) :
    nextGroup.apply m = (.ok true, { m with groupPos := m.groupPos + 1 }) ∧
      Holds S { m with groupPos := m.groupPos + 1 } us { w with group? := some g, groups := gs } := by
  rw [h.groups] at hw
  obtain ⟨hlt, hg, hgs⟩ := drop_eq_cons hw
  have hlen : m.groupPos < m.groups.length := by simpa [rows] using hlt
  refine ⟨by simp [nextGroup, Nat.not_le.mpr hlen], { h with groups := hgs.symm, group := ?_ }⟩
  rintro g' ⟨⟩
  show m.rows[m.groupPos + 1 - 1]? = some g
  rw [Nat.add_sub_cancel, ← hg]
  exact List.getElem?_eq_getElem hlt

omit [Cursor τ] in
theorem Holds.nextGroup_nil (h : Holds S m us w) (hw : w.groups = []) :
    nextGroup.apply m = (.ok false, { m with groupPos := m.groups.length + 1 }) ∧
      Holds S { m with groupPos := m.groups.length + 1 } us { w with group? := none, groups := [] } := by
  rw [h.groups, List.drop_eq_nil_iff] at hw
  have hlen : m.groups.length ≤ m.groupPos := by simpa [rows] using hw
  refine ⟨by simp [nextGroup, hlen], { h with groups := ?_, group := by simp }⟩
  simp [rows]

/-- A merge whose view has a field left moves every input to its next field, where they all
stand on a field of that name, and starts a term merge over them. -/
theorem Holds.nextField_cons (hS : ViewSim S) (h : Holds S m us w) {F : FieldBlock} {FS : Ftgs}
    (hw : w.fields = F :: FS) :
    ∃ m', nextField.apply m = (.ok true, m') ∧
      Holds S m' (us.map View.nextField) ⟨some F, none, none, [], F.terms, FS⟩ := by
  rw [h.fields] at hw
  obtain ⟨hcons, hterms, hrest⟩ := Merge.fields_eq_cons (by simpa using h.nonempty) h.aligned hw
  have hfield : ∀ u ∈ us, ∃ f fs, u.fields = f :: fs ∧ f.field = F.field :=
    fun u hu => hcons u.fields (List.mem_map_of_mem hu)
  obtain ⟨hrun, hrel⟩ := h.lanes.nextField hS
  set lanes' := m.lanes.map fun l => ((Lane.onInner Cursor.nextField).apply l).2
  have hlen : lanes'.length = us.length := hrel.1.trans (List.length_map _)
  have hne : lanes' ≠ [] := by
    intro hnil
    rw [hnil, List.length_nil, eq_comm, List.length_eq_zero_iff] at hlen
    exact h.nonempty hlen
  -- every input reached a field named as `F`
  have hagree : agree lanes' (us.map fun u => .ok !u.fields.isEmpty) = .ok (some F.field) := by
    apply agree_of_fields
    · simp [List.zip_eq_nil_iff, hne, h.nonempty]
    · intro p hp
      rw [List.zip_map, List.mem_map] at hp
      obtain ⟨⟨l, u⟩, hlu, rfl⟩ := hp
      obtain ⟨f, fs, hu, hf⟩ := hfield u (List.of_mem_zip hlu).2
      obtain ⟨-, -, hshow⟩ := Lane.nextField_view hS (h.lanes.forall_zip _ hlu)
      refine ⟨by simp [hu], ?_⟩
      rw [← hf]
      exact hshow f (by simp [hu])
  refine ⟨{ m with totals := {}, groups := [], seen := SeenGroups.empty m.seen.capacity,
                   groupPos := 0, field := F.field,
                   stage := .merging { sources := lanes', pending := List.range lanes'.length } },
    ?_, ?_⟩
  · simp only [Merger.nextField, Step.apply_bind, Step.apply_get, h.isOpen, Bool.false_eq_true,
      if_false, Step.apply_pure, Step.apply_modify, lanes_resetTerm, hrun, hagree,
      TermMerge.create_of_ne_nil hne]
    rw [h.resetTerm_eq]
    simp [h.isOpen]
  · have hon : ∀ u ∈ us.map View.nextField, ∃ f, u.field? = some f := by
      intro u hu
      obtain ⟨u₀, hu₀, rfl⟩ := List.mem_map.mp hu
      obtain ⟨f, fs, hf, -⟩ := hfield u₀ hu₀
      exact ⟨f, by simp [View.nextField, hf]⟩
    have hbelow : ∀ u ∈ us.map View.nextField, u.Below m.numGroups := by
      intro u hu
      obtain ⟨u₀, hu₀, rfl⟩ := List.mem_map.mp hu
      exact (h.below u₀ hu₀).nextField'
    refine
      { isOpen := h.isOpen
        nonempty := by simpa using h.nonempty
        aligned := by simpa [List.map_map, Function.comp_def] using h.aligned.tail
        below := hbelow
        fields := by simpa [List.map_map, Function.comp_def] using hrest
        stage := .inr ⟨_, rfl, TermMerge.Spans.create hrel hon hbelow, ?_⟩
        field := by rintro f ⟨⟩; rfl
        term := by rintro t ⟨⟩
        groups := by simp [rows]
        group := by rintro g ⟨⟩
        seen := ⟨SeenGroups.valid_empty _, SeenGroups.ordered_empty _, rfl⟩
        totals := by rintro r ⟨⟩ }
    rw [TermMerge.lefts_create (hlen.trans (List.length_map _).symm), hterms]
    simp [List.map_map, Function.comp_def]

/-- A merge whose view has no field left moves every input past its last field and says the
stream ended. -/
theorem Holds.nextField_nil (hS : ViewSim S) (h : Holds S m us w) (hw : w.fields = []) :
    ∃ m', nextField.apply m = (.ok false, m') ∧
      Holds S m' (us.map View.nextField) ⟨none, none, none, [], [], []⟩ := by
  rw [h.fields] at hw
  have hnil := Merge.fields_eq_nil (by simpa using h.nonempty) h.aligned hw
  have hend : ∀ u ∈ us, u.fields = [] := fun u hu => hnil u.fields (List.mem_map_of_mem hu)
  obtain ⟨hrun, hrel⟩ := h.lanes.nextField hS
  set lanes' := m.lanes.map fun l => ((Lane.onInner Cursor.nextField).apply l).2
  -- every input ended
  have hagree : agree lanes' (us.map fun u => .ok !u.fields.isEmpty) = .ok none := by
    apply agree_of_ended ((List.length_map _).trans (hrel.1.trans (List.length_map _)).symm)
    intro o ho
    obtain ⟨u, hu, rfl⟩ := List.mem_map.mp ho
    simp [hend u hu]
  have hnext : ∀ u' ∈ us.map View.nextField, u'.fields = [] := by
    intro u' hu'
    obtain ⟨u, hu, rfl⟩ := List.mem_map.mp hu'
    simp [View.nextField, hend u hu]
  refine ⟨{ m with totals := {}, groups := [], seen := SeenGroups.empty m.seen.capacity,
                   groupPos := 0, stage := .idle lanes' }, ?_, ?_⟩
  · simp only [Merger.nextField, Step.apply_bind, Step.apply_get, h.isOpen, Bool.false_eq_true,
      if_false, Step.apply_pure, Step.apply_modify, lanes_resetTerm, hrun, hagree]
    rw [h.resetTerm_eq]
    simp [h.isOpen]
  · refine
      { isOpen := h.isOpen
        nonempty := by simpa using h.nonempty
        aligned := by simpa [List.map_map, Function.comp_def] using h.aligned.tail
        below := ?_
        fields := (Merge.fields_of_nil fun v hv => ?_).symm
        stage := .inl ⟨lanes', rfl, hrel, rfl⟩
        field := by rintro f ⟨⟩
        term := by rintro t ⟨⟩
        groups := by simp [rows]
        group := by rintro g ⟨⟩
        seen := ⟨SeenGroups.valid_empty _, SeenGroups.ordered_empty _, rfl⟩
        totals := by rintro r ⟨⟩ }
    · intro u hu
      obtain ⟨u₀, hu₀, rfl⟩ := List.mem_map.mp hu
      exact (h.below u₀ hu₀).nextField'
    · obtain ⟨u', hu', rfl⟩ := List.mem_map.mp hv
      exact hnext u' hu'

end Steps

/-! ### Summing the groups of the contributors -/

/-- The views `us` after the inputs `cs`, in order, gave all the groups of their term. -/
def drainedAt : List Nat → List View → List View
  | [], us => us
  | i :: cs, us => drainedAt cs (us.modify i View.drained)

theorem map_fields_drainedAt : ∀ (cs : List Nat) (us : List View),
    (drainedAt cs us).map (·.fields) = us.map (·.fields)
  | [], _ => rfl
  | i :: cs, us => by
    rw [drainedAt, map_fields_drainedAt cs]
    apply List.ext_getElem?
    intro j
    simp only [List.getElem?_map, List.getElem?_modify]
    cases us[j]? <;> simp [View.drained, apply_ite]

theorem length_drainedAt : ∀ (cs : List Nat) (us : List View), (drainedAt cs us).length = us.length
  | [], _ => rfl
  | i :: cs, us => by rw [drainedAt, length_drainedAt cs, List.length_modify]

/-- Each view after draining is one of the views before, drained or not. -/
theorem mem_drainedAt : ∀ (cs : List Nat) (us : List View) {v : View}, v ∈ drainedAt cs us →
    ∃ u ∈ us, v = u ∨ v = u.drained
  | [], _, v, hv => ⟨v, hv, .inl rfl⟩
  | i :: cs, us, v, hv => by
    obtain ⟨u, hu, hvu⟩ := mem_drainedAt cs _ hv
    obtain ⟨j, hj⟩ := List.mem_iff_getElem?.mp hu
    rw [List.getElem?_modify] at hj
    cases hu₀ : us[j]? with
    | none => rw [hu₀] at hj; cases hj
    | some u₀ =>
      rw [hu₀] at hj
      simp only [Option.map_eq_map, Option.map_some, Option.some.injEq] at hj
      refine ⟨u₀, List.mem_of_getElem? hu₀, ?_⟩
      -- draining twice is draining once
      split at hj <;> subst hj <;> rcases hvu with rfl | rfl <;> simp [View.drained]

theorem below_drainedAt {G : UInt32} {cs : List Nat} {us : List View}
    (h : ∀ u ∈ us, u.Below G) : ∀ v ∈ drainedAt cs us, v.Below G := by
  intro v hv
  obtain ⟨u, hu, hvu | hvu⟩ := mem_drainedAt cs us hv <;> rw [hvu]
  · exact h u hu
  · exact (h u hu).drained

theorem getElem?_drainedAt_of_not_mem : ∀ (cs : List Nat) (us : List View) {j : Nat}, j ∉ cs →
    (drainedAt cs us)[j]? = us[j]?
  | [], _, _, _ => rfl
  | i :: cs, us, j, hj => by
    rw [List.mem_cons, not_or] at hj
    rw [drainedAt, getElem?_drainedAt_of_not_mem cs _ hj.2, List.getElem?_modify]
    cases us[j]? <;> simp [Ne.symm hj.1]

omit [Cursor τ] in
theorem onLane_apply {α : Type} {mg : Merger τ} {merge : TermMerge (Lane τ)} {l : Lane τ} {i : Nat}
    {x : Step τ α} (hst : mg.stage = .merging merge) (hl : merge.sources[i]? = some l) :
    (onLane i x).apply mg = ((x.apply l.inner).1.map some,
      { mg with stage := .merging { merge with
          sources := merge.sources.set i { l with inner := (x.apply l.inner).2 } } }) := by
  simp only [onLane, onMerge, Step.apply_bind, Step.apply_ofFn, hst, TermMerge.apply_onSource hl,
    Lane.apply_onInner]
  cases (x.apply l.inner).1 <;> rfl

omit [Cursor τ] in
theorem onMerge_merging {α : Type} {mg : Merger τ} {merge : TermMerge (Lane τ)}
    {x : Step (TermMerge (Lane τ)) α} (hst : mg.stage = .merging merge) :
    (onMerge x).apply mg = ((x.apply merge).1.map some, { mg with stage := .merging (x.apply merge).2 }) := by
  simp [onMerge, hst]

omit [Cursor τ] in
theorem lane?_merging {mg : Merger τ} {merge : TermMerge (Lane τ)} (hst : mg.stage = .merging merge)
    (i : Nat) : mg.lane? i = (merge.sources[i]?).map (·.inner) := by
  simp [lane?, lanes, hst]

/-- Adding the groups one contributor has left, with fuel for all of them: it gives them in
order, each group's stats are added to its totals and its id is marked seen, and the
contributor's view ends drained. -/
theorem addGroups_spec (hS : ViewSim S) {i : Nat} (gs : List GroupRow) :
    ∀ (fuel : Nat) (mg : Merger τ) (merge : TermMerge (Lane τ)) (us : List View) (u : View),
      mg.stage = .merging merge → Related S merge.sources us → us[i]? = some u → u.groups = gs →
      (∀ g ∈ gs, g.group < mg.numGroups) → gs.length < fuel →
      ∃ srcs, (addGroups i fuel).apply mg =
        (.ok (), { mg with stage := .merging { merge with sources := srcs },
                           totals := gs.foldl (fun t r => t.add r.group r.stats) mg.totals,
                           seen := (gs.map (·.group)).foldl SeenGroups.insert mg.seen }) ∧
        Related S srcs (us.set i u.drained) := by
  induction gs with
  | nil =>
    rintro (_ | fuel) mg merge us u hst hrel hu hgs - hfuel
    · exact absurd hfuel (Nat.lt_irrefl 0)
    obtain ⟨l, hl, hlu⟩ := hrel.exists_lane hu
    obtain ⟨c, hc, hrel'⟩ := hS.nextGroup_nil hlu hgs
    refine ⟨merge.sources.set i { l with inner := c }, ?_, hrel.set i hrel'⟩
    simp [addGroups, onLane_apply hst hl, hc]
  | cons g gs ih =>
    rintro (_ | fuel) mg merge us u hst hrel hu hgs hlt hfuel
    · exact absurd hfuel (Nat.not_lt_zero _)
    obtain ⟨l, hl, hlu⟩ := hrel.exists_lane hu
    obtain ⟨c, hc, hrel'⟩ := hS.nextGroup_cons hlu hgs
    obtain ⟨hg, hstats⟩ := hS.group hrel' rfl
    have hi : i < merge.sources.length := (List.getElem?_eq_some_iff.mp hl).1
    -- the rest of the groups, after this one is added
    obtain ⟨srcs, hrun, hsrcs⟩ := ih fuel
      { mg with stage := .merging { merge with
                  sources := merge.sources.set i { l with inner := c } },
                totals := mg.totals.add g.group g.stats, seen := mg.seen.insert g.group }
      { merge with sources := merge.sources.set i { l with inner := c } }
      (us.set i { u with group? := some g, groups := gs }) { u with group? := some g, groups := gs }
      rfl (hrel.set i hrel') (List.getElem?_set_self (hrel.1 ▸ hi)) rfl
      (fun g' hg' => hlt g' (List.mem_cons_of_mem _ hg'))
      (by simp only [List.length_cons] at hfuel; omega)
    refine ⟨srcs, ?_, by simpa [List.set_set, View.drained] using hsrcs⟩
    have hbelow : ¬ mg.numGroups ≤ g.group := UInt32.not_le.mpr (hlt g (List.mem_cons_self ..))
    simp only [addGroups, Step.apply_bind, onLane_apply hst hl, hc, Step.map_ok, ne_eq,
      not_true_eq_false, if_false, Step.apply_get, lane?, lanes, List.getElem?_set_self hi,
      Option.map_some, hg, hstats, hbelow, Step.apply_set, hrun]
    rfl

/-- The groups the contributors `cs` have left, one contributor after another. -/
def groupsAt (cs : List Nat) (us : List View) : List GroupRow :=
  cs.flatMap fun i => (us[i]?.map (·.groups)).getD []

/-- Adding the groups of the contributors `cs` in order, each with fuel for all its groups:
the totals and the tracker take every group of every contributor in turn, and the
contributors' views end drained. -/
theorem forIn_addGroups (hS : ViewSim S) (fuel : Nat → Nat) (cs : List Nat) :
    ∀ (mg : Merger τ) (merge : TermMerge (Lane τ)) (us : List View),
      mg.stage = .merging merge → Related S merge.sources us → cs.Nodup →
      (∀ u ∈ us, u.Below mg.numGroups) →
      (∀ i ∈ cs, ∃ u, us[i]? = some u ∧ u.groups.length < fuel i) →
      ∃ srcs, (forIn cs PUnit.unit fun i _ => do
          addGroups i (fuel i)
          pure (ForInStep.yield PUnit.unit)).apply mg =
        (.ok PUnit.unit,
          { mg with
            stage := .merging { merge with sources := srcs }
            totals := (groupsAt cs us).foldl (fun t r => t.add r.group r.stats) mg.totals
            seen := ((groupsAt cs us).map (·.group)).foldl SeenGroups.insert mg.seen }) ∧
        Related S srcs (drainedAt cs us) := by
  induction cs with
  | nil =>
    intro mg merge us hst hrel _ _ _
    refine ⟨merge.sources, ?_, hrel⟩
    cases mg
    simp only at hst
    subst hst
    rfl
  | cons i cs ih =>
    intro mg merge us hst hrel hnd hbelow hfuel
    rw [List.nodup_cons] at hnd
    obtain ⟨u, hu, hlen⟩ := hfuel i (List.mem_cons_self ..)
    obtain ⟨srcs₁, hrun₁, hrel₁⟩ := addGroups_spec hS u.groups (fuel i) mg merge us u hst hrel hu
      rfl (fun g hg => (hbelow u (List.mem_of_getElem? hu)).1 g hg) hlen
    -- the later contributors still stand where they stood
    have hother : ∀ j ∈ cs, (us.set i u.drained)[j]? = us[j]? :=
      fun j hj => List.getElem?_set_ne fun h : i = j => hnd.1 (h ▸ hj)
    have hbelow₁ : ∀ v ∈ us.set i u.drained, v.Below mg.numGroups := by
      intro v hv
      rcases List.mem_or_eq_of_mem_set hv with hv | rfl
      · exact hbelow v hv
      · exact (hbelow u (List.mem_of_getElem? hu)).drained
    obtain ⟨srcs, hrun, hrel'⟩ := ih
      { mg with
        stage := .merging { merge with sources := srcs₁ }
        totals := u.groups.foldl (fun t r => t.add r.group r.stats) mg.totals
        seen := (u.groups.map (·.group)).foldl SeenGroups.insert mg.seen }
      { merge with sources := srcs₁ } (us.set i u.drained) rfl
      hrel₁ hnd.2 hbelow₁ fun j hj => hother j hj ▸ hfuel j (List.mem_cons_of_mem _ hj)
    have hgroups : groupsAt (i :: cs) us = u.groups ++ groupsAt cs (us.set i u.drained) := by
      simp only [groupsAt, List.flatMap_cons, hu, Option.map_some, Option.getD_some]
      congr 1
      exact List.flatMap_congr fun j hj => by rw [hother j hj]
    refine ⟨srcs, ?_, ?_⟩
    · rw [List.forIn_cons, Step.apply_bind, Step.apply_bind, hrun₁]
      simp only [Step.apply_pure]
      rw [hrun, hgroups, List.map_append, List.foldl_append, List.foldl_append]
    · rw [drainedAt, List.modify_eq_set_getElem?, hu]
      exact hrel'

/-- Draining views changes nothing a term merge has left to give. -/
theorem lefts_drainedAt {σ : Type} (merge : TermMerge σ) :
    ∀ (cs : List Nat) (us : List View), merge.lefts (drainedAt cs us) = merge.lefts us
  | [], _ => rfl
  | i :: cs, us => by
    rw [drainedAt, lefts_drainedAt merge cs]
    apply TermMerge.lefts_ext (List.length_modify ..)
    intro j u u' hu hu'
    rw [List.getElem?_modify, hu] at hu'
    simp only [Option.map_eq_map, Option.map_some, Option.some.injEq] at hu'
    split at hu' <;> subst hu' <;> rfl

omit [Cursor τ] in
/-- A term merge still spans the views after the sources it has to advance gave their groups. -/
theorem spans_drainedAt {G : UInt32} {merge : TermMerge (Lane τ)} {us : List View} {cs : List Nat}
    (h : TermMerge.Spans S G merge us) (hcs : ∀ i ∈ cs, i ∈ merge.pending) {srcs : List (Lane τ)}
    (hrel : Related S srcs (drainedAt cs us)) :
    TermMerge.Spans S G { merge with sources := srcs } (drainedAt cs us) where
  sources := hrel
  onField v hv := by
    obtain ⟨u, hu, hvu | hvu⟩ := mem_drainedAt cs us hv <;> rw [hvu]
    · exact h.onField u hu
    · exact h.onField u hu
  below := below_drainedAt h.below
  pending_nodup := h.pending_nodup
  pending_lt i hi := length_drainedAt cs us ▸ h.pending_lt i hi
  queued_nodup := h.queued_nodup
  queued e he := by
    obtain ⟨hp, hq⟩ := h.queued e he
    -- a queued source is not pending, so it gave no groups
    rw [getElem?_drainedAt_of_not_mem cs us fun hc => hp (hcs _ hc)]
    exact ⟨hp, hq⟩
  state := h.state

/-- Summing the groups of the current term: the contributors, which the term merge has still
to advance, give all their groups in index order, the merge adds their stats to the totals
and records their ids, and then lists the ids ascending. -/
theorem accumulate_spec (hS : ViewSim S)
    (hB : ∀ c u, S c u → u.groups.length ≤ Cursor.budget c) {mg : Merger τ}
    {merge : TermMerge (Lane τ)} {us : List View} (hst : mg.stage = .merging merge)
    (hsp : TermMerge.Spans S mg.numGroups merge us) (hcp : merge.contributors = merge.pending) :
    ∃ srcs, accumulate.apply mg =
        (.ok (),
          { mg with
            stage := .merging { merge with sources := srcs }
            totals := (groupsAt merge.contributors us).foldl (fun t r => t.add r.group r.stats)
              mg.totals
            seen := (((groupsAt merge.contributors us).map (·.group)).foldl SeenGroups.insert
              mg.seen).sort
            groups := (((groupsAt merge.contributors us).map (·.group)).foldl SeenGroups.insert
              mg.seen).sorted }) ∧
      Related S srcs (drainedAt merge.contributors us) := by
  -- each contributor's fuel, one more than its budget, covers the groups it has left
  have hfuel : ∀ i ∈ merge.contributors, ∃ u, us[i]? = some u ∧
      u.groups.length < ((mg.lane? i).map Cursor.budget).getD 0 + 1 := by
    intro i hi
    have hlt := hsp.pending_lt i (hcp ▸ hi)
    obtain ⟨l, hl, hlu⟩ := hsp.sources.exists_lane (List.getElem?_eq_getElem hlt)
    refine ⟨us[i], List.getElem?_eq_getElem hlt, ?_⟩
    rw [lane?_merging hst, hl]
    have := hB _ _ hlu
    simp only [Option.map_some, Option.getD_some]
    omega
  obtain ⟨srcs, hrun, hrel⟩ := forIn_addGroups hS (fun i => ((mg.lane? i).map Cursor.budget).getD 0 + 1)
    merge.contributors mg merge us hst hsp.sources (hcp ▸ hsp.pending_nodup) hsp.below hfuel
  refine ⟨srcs, ?_, hrel⟩
  simp only [accumulate, Step.apply_bind, Step.apply_get, hst]
  rw [hrun]
  rfl

/-! ### Moving to a term -/

section Term

variable {m : Merger τ} {us : List View} {w : View}

omit [Cursor τ] in
/-- Clearing the current term keeps the invariant, with the merge on no term and no group, for
any stage that spans views of the same streams. -/
theorem Holds.reset (h : Holds S m us w) {us' : List View}
    (hfields : us'.map (·.fields) = us.map (·.fields)) (hbelow : ∀ u ∈ us', u.Below m.numGroups)
    {stage : Stage τ} {terms : List TermBlock}
    (hstage : (∃ lanes, stage = .idle lanes ∧ Related S lanes us' ∧ terms = []) ∨
      ∃ merge, stage = .merging merge ∧ TermMerge.Spans S m.numGroups merge us' ∧
        terms = Merge.terms m.numStats (merge.lefts us')) :
    Holds S
      { m with
        totals := {}
        groups := []
        seen := SeenGroups.empty m.seen.capacity
        groupPos := 0
        stage := stage }
      us' { w with term? := none, group? := none, groups := [], terms := terms } where
  isOpen := h.isOpen
  nonempty := by
    rintro rfl
    exact h.nonempty (List.map_eq_nil_iff.mp hfields.symm)
  aligned := hfields ▸ h.aligned
  below := hbelow
  fields := hfields ▸ h.fields
  stage := hstage
  field := h.field
  term := by rintro t ⟨⟩
  groups := by simp [rows]
  group := by rintro g ⟨⟩
  seen := ⟨SeenGroups.valid_empty _, SeenGroups.ordered_empty _, rfl⟩
  totals := by rintro r ⟨⟩

/-- A merge whose view has no term left says so and clears the current term. -/
theorem Holds.nextTerm_nil (hS : ViewSim S) (h : Holds S m us w) (hw : w.terms = []) :
    ∃ m' us', nextTerm.apply m = (.ok false, m') ∧
      Holds S m' us' { w with term? := none, group? := none, groups := [], terms := [] } := by
  rcases h.stage with ⟨lanes, hst, hrel, -⟩ | ⟨merge, hst, hsp, hterms⟩
  · refine ⟨m.resetTerm, us, ?_, ?_⟩
    · have hidle : m.resetTerm.stage = .idle lanes := hst
      simp [nextTerm, onMerge, hidle]
    · rw [h.resetTerm_eq]
      exact h.reset rfl h.below (.inl ⟨lanes, hst, hrel, rfl⟩)
  · rw [hterms] at hw
    obtain ⟨merge', us₁, hnext, hsp₁, hnil, hfields⟩ := TermMerge.next_nil hS hsp hw
    refine ⟨{ m.resetTerm with stage := .merging merge' }, us₁, ?_, ?_⟩
    · have hmerge := onMerge_merging (x := TermMerge.next) (show m.resetTerm.stage = _ from hst)
      simp [nextTerm, hmerge, hnext]
    · rw [h.resetTerm_eq]
      -- the sources have nothing left, so their merge has no term
      exact h.reset hfields hsp₁.below (.inr ⟨merge', rfl, hsp₁, (Merge.terms_of_least_none
        (TermMerge.least_eq_none.mpr (Merge.heads_eq_nil_iff.mpr hnil))).symm⟩)

/-- A merge whose view has a term left lets the term merge move to it, sums the groups its
contributors send, and stands on the term with the merged groups ahead. -/
theorem Holds.nextTerm_cons (hS : ViewSim S)
    (hB : ∀ c u, S c u → u.groups.length ≤ Cursor.budget c) (h : Holds S m us w)
    {t : TermBlock} {ts : List TermBlock} (hw : w.terms = t :: ts) :
    ∃ m' us', nextTerm.apply m = (.ok true, m') ∧
      Holds S m' us' { w with term? := some t, group? := none, groups := t.groups, terms := ts } := by
  rcases h.stage with ⟨lanes, -, -, hnil⟩ | ⟨merge, hst, hsp, hterms⟩
  · rw [hnil] at hw
    cases hw
  rw [hterms] at hw
  obtain ⟨merge', us₁, hnext, hsp₁, hrest, hcur, hdf, hcp, hgroups, hfields⟩ :=
    TermMerge.next_cons hS hsp hw
  -- the merge after clearing the last term, on the term just chosen
  have hst₀ : ({ m with
      totals := {}
      groups := []
      seen := SeenGroups.empty m.seen.capacity
      groupPos := 0
      stage := .merging merge' } : Merger τ).stage = .merging merge' := rfl
  obtain ⟨srcs, hacc, hrel⟩ := accumulate_spec hS hB hst₀ hsp₁ hcp
  obtain ⟨hv, ho, hsorted⟩ := SeenGroups.foldl_insert_empty m.seen.capacity
    ((groupsAt merge'.contributors us₁).map (·.group))
  apply Exists.intro
  refine ⟨drainedAt merge'.contributors us₁, ?run, ?holds⟩
  case run =>
    have hmerge := onMerge_merging (x := TermMerge.next) (show m.resetTerm.stage = _ from hst)
    simp only [nextTerm, Step.apply_bind, Step.apply_modify, hmerge, hnext, Step.map_ok]
    rw [h.resetTerm_eq]
    simp only [hacc, Step.apply_pure]
    rfl
  case holds =>
    have hlen : (drainedAt merge'.contributors us₁).length = us.length := by
      rw [length_drainedAt, ← List.length_map (f := (·.fields)), hfields, List.length_map]
    refine
      { isOpen := h.isOpen
        nonempty := fun hnil => h.nonempty (List.eq_nil_of_length_eq_zero (by rw [← hlen, hnil]; rfl))
        aligned := by rw [map_fields_drainedAt, hfields]; exact h.aligned
        below := below_drainedAt hsp₁.below
        fields := by rw [map_fields_drainedAt, hfields]; exact h.fields
        stage := .inr ⟨_, rfl, spans_drainedAt hsp₁ (fun i hi => hcp ▸ hi) hrel, ?_⟩
        field := h.field
        term := by rintro t' ⟨⟩; exact ⟨_, rfl, hcur, hdf⟩
        groups := ?_
        group := by rintro g ⟨⟩
        seen := ⟨hv.sort, ho.sort, rfl⟩
        totals := ?_ }
    · rw [lefts_drainedAt]
      exact hrest.symm
    · -- the rows of the summed totals, by ascending group, are the merged groups
      show t.groups = (rows _).drop 0
      rw [List.drop_zero, hgroups]
      simp only [rows, hsorted]
      rfl
    · intro r hr
      rcases Totals.mem_rows_foldl hr with hg | hg
      · show r.1 ∈ SeenGroups.sorted _
        rw [hsorted, List.mem_mergeSort, Merge.mem_distinct]
        exact hg
      · cases hg

end Term

/-- Under a budget that covers the groups each input has left, a stream merge moves as the
view of its inputs' merged stream. -/
theorem shows_viewSim (hS : ViewSim S) (hB : ∀ c u, S c u → u.groups.length ≤ Cursor.budget c) :
    ViewSim (Shows S) where
  nextField_cons := by
    rintro m w f fs ⟨us, h⟩ hw
    obtain ⟨m', hrun, h'⟩ := h.nextField_cons hS hw
    exact ⟨m', hrun, _, h'⟩
  nextField_nil := by
    rintro m w ⟨us, h⟩ hw
    obtain ⟨m', hrun, h'⟩ := h.nextField_nil hS hw
    exact ⟨m', hrun, _, h'⟩
  nextTerm_cons := by
    rintro m w f t ts ⟨us, h⟩ - hw
    obtain ⟨m', us', hrun, h'⟩ := h.nextTerm_cons hS hB hw
    exact ⟨m', hrun, us', h'⟩
  nextTerm_nil := by
    rintro m w ⟨us, h⟩ hw
    obtain ⟨m', us', hrun, h'⟩ := h.nextTerm_nil hS hw
    exact ⟨m', hrun, us', h'⟩
  nextGroup_cons := by
    rintro m w g gs ⟨us, h⟩ hw
    obtain ⟨hrun, h'⟩ := h.nextGroup_cons hw
    exact ⟨_, hrun, us, h'⟩
  nextGroup_nil := by
    rintro m w ⟨us, h⟩ hw
    obtain ⟨hrun, h'⟩ := h.nextGroup_nil hw
    exact ⟨_, hrun, us, h'⟩
  field := by
    rintro m w f ⟨us, h⟩ hf
    exact h.field f hf
  term := by
    rintro m w t ⟨us, h⟩ ht
    obtain ⟨merge, hst, hcur, hdf⟩ := h.term t ht
    simp [Cursor.term, Cursor.docFreq, hst, hcur, hdf]
  group := by
    rintro m w g ⟨us, h⟩ hg
    have hrow := h.group g hg
    rw [rows, List.getElem?_map, Option.map_eq_some_iff] at hrow
    obtain ⟨g', hg', rfl⟩ := hrow
    show (m.groups[m.groupPos - 1]?).getD 0 = g' ∧
      m.totals.row ((m.groups[m.groupPos - 1]?).getD 0) m.numStats = _
    simp [hg']

/-! ### Reading a merge to its end -/

omit [Cursor τ] in
/-- The running maximum of a fold is above its start and above every element. -/
theorem le_foldl_max (f : τ → UInt32) : ∀ (xs : List τ) (init : UInt32),
    init ≤ xs.foldl (fun m i => if m < f i then f i else m) init ∧
      ∀ x ∈ xs, f x ≤ xs.foldl (fun m i => if m < f i then f i else m) init
  | [], init => ⟨UInt32.le_refl init, by simp⟩
  | x :: xs, init => by
    obtain ⟨hle, hall⟩ := le_foldl_max f xs (if init < f x then f x else init)
    -- the step keeps the larger of the running maximum and the element
    have hstep : init ≤ (if init < f x then f x else init) ∧ f x ≤ (if init < f x then f x else init) := by
      split
      · exact ⟨UInt32.le_of_lt ‹_›, UInt32.le_refl _⟩
      · exact ⟨UInt32.le_refl _, UInt32.not_lt.mp ‹_›⟩
    refine ⟨UInt32.le_trans hstep.1 hle, ?_⟩
    rintro y (_ | ⟨_, hy⟩)
    · exact UInt32.le_trans hstep.2 hle
    · exact hall y hy

/-- A merge over inputs that agree on their stat count starts idle over them. -/
theorem create_eq {inputs : List τ} {n : Nat} (hne : inputs ≠ [])
    (hstats : ∀ c ∈ inputs, Cursor.numStats c = n) :
    create inputs = .ok
      { stage := .idle (inputs.map fun i => { inner := i }), numStats := n,
        numGroups := inputs.foldl (fun m i => if m < Cursor.numGroups i then Cursor.numGroups i else m) 1,
        seen := SeenGroups.empty (inputs.foldl
          (fun m i => if m < Cursor.numGroups i then Cursor.numGroups i else m) 1).toNat } := by
  obtain ⟨first, rest, rfl⟩ := List.exists_cons_of_ne_nil hne
  have hfind : (first :: rest).find? (Cursor.numStats · != n) = none :=
    List.find?_eq_none.mpr fun c hc => by simp [hstats c hc]
  simp only [create, hstats first (List.mem_cons_self ..), hfind]

omit [Cursor τ] in
theorem related_start {inputs : List τ} {vs : List Ftgs}
    (h : List.Forall₂ (fun c v => S c (View.start v)) inputs vs) :
    Related S (inputs.map fun i => { inner := i }) (vs.map View.start) := by
  obtain ⟨hlen, hall⟩ := List.forall₂_iff_get.mp h
  refine ⟨by simp [hlen], ?_⟩
  intro i l u hl hu
  rw [List.getElem?_map, Option.map_eq_some_iff] at hl hu
  obtain ⟨c, hc, rfl⟩ := hl
  obtain ⟨v, hv, rfl⟩ := hu
  obtain ⟨hi, rfl⟩ := List.getElem?_eq_some_iff.mp hc
  obtain ⟨hi', rfl⟩ := List.getElem?_eq_some_iff.mp hv
  exact hall i hi hi'

theorem foldl_add_budget (xs : List τ) (acc : Nat) :
    (xs.map fun i => ({ inner := i } : Lane τ)).foldl (fun n l => n + Cursor.budget l.inner) acc =
      acc + (xs.map Cursor.budget).sum := by
  induction xs generalizing acc with
  | nil => simp
  | cons x xs ih =>
    simp only [List.map_cons, List.foldl_cons, List.sum_cons, ih]
    omega

section Create

variable {inputs : List τ} {vs : List Ftgs} {n : Nat} {m : Merger τ}

/-- A fresh merge over inputs at the starts of streams visiting the same fields stands at the
start of their merged stream. -/
theorem holds_create (hrel : List.Forall₂ (fun c v => S c (View.start v) ∧
      (View.start v).Below (Cursor.numGroups c)) inputs vs)
    (hne : inputs ≠ []) (hstats : ∀ c ∈ inputs, Cursor.numStats c = n)
    (haligned : Merge.Aligned vs) (hm : create inputs = .ok m) :
    Holds S m (vs.map View.start) (View.start (Merge.fields n vs)) := by
  rw [create_eq hne hstats, Except.ok.injEq] at hm
  subst hm
  obtain ⟨hlen, hall⟩ := List.forall₂_iff_get.mp hrel
  refine
    { isOpen := rfl
      nonempty := ?_
      aligned := by simpa [List.map_map, Function.comp_def, View.start] using haligned
      below := ?_
      fields := by simp [List.map_map, Function.comp_def, View.start]
      stage := .inl ⟨_, rfl, related_start (hrel.imp fun c v h => h.1), rfl⟩
      field := by rintro f ⟨⟩
      term := by rintro t ⟨⟩
      groups := by simp [rows, View.start]
      group := by rintro g ⟨⟩
      seen := ⟨SeenGroups.valid_empty _, SeenGroups.ordered_empty _, rfl⟩
      totals := by rintro r ⟨⟩ }
  · rintro hnil
    rw [List.map_eq_nil_iff] at hnil
    subst hnil
    exact hne (List.forall₂_nil_right_iff.mp hrel)
  · -- each stream's groups are below its input's bound, which the merge's bound is above
    intro u hu
    obtain ⟨v, hv, rfl⟩ := List.mem_map.mp hu
    obtain ⟨i, hi, rfl⟩ := List.getElem_of_mem hv
    have hi' : i < inputs.length := hlen ▸ hi
    exact (hall i hi' hi).2.mono ((le_foldl_max _ inputs 1).2 _ (List.getElem_mem hi'))

theorem budget_create (hne : inputs ≠ []) (hstats : ∀ c ∈ inputs, Cursor.numStats c = n)
    (hm : create inputs = .ok m) : Cursor.budget m = (inputs.map Cursor.budget).sum + 1 := by
  rw [create_eq hne hstats, Except.ok.injEq] at hm
  subst hm
  show (inputs.map fun i => ({ inner := i } : Lane τ)).foldl
    (fun n l => n + Cursor.budget l.inner) 0 + 0 + 1 = _
  rw [foldl_add_budget, Nat.zero_add, Nat.add_zero]

omit [Cursor τ] in
/-- What a merge stands on does not depend on the bytes it records as claimed. -/
theorem Holds.withClaimed {us : List View} {w : View} (h : Holds S m us w) (b : UInt64) :
    Holds S { m with claimed := b } us w :=
  ⟨h.isOpen, h.nonempty, h.aligned, h.below, h.fields, h.stage, h.field, h.term, h.groups,
    h.group, h.seen, h.totals⟩

/-- A fresh merge over inputs that stand at the starts of streams visiting the same fields stands
at the start of their merged stream, with a budget above every level of it. Each input's budget
bounds every level of its stream, its group bound is above the groups of its stream, and the
inputs agree on their stat count. -/
theorem start_create (hrel : List.Forall₂ (fun c v => S c (View.start v) ∧
      v.Bounded (Cursor.budget c) ∧ (View.start v).Below (Cursor.numGroups c)) inputs vs)
    (hne : inputs ≠ []) (hstats : ∀ c ∈ inputs, Cursor.numStats c = n)
    (haligned : Merge.Aligned vs) :
    ∃ m, create inputs = .ok m ∧ Shows S m (View.start (Merge.fields n vs)) ∧
      (Merge.fields n vs).Bounded (Cursor.budget m) := by
  obtain ⟨m, hm⟩ : ∃ m, create inputs = .ok m := ⟨_, create_eq hne hstats⟩
  have hvs : vs ≠ [] := by
    rintro rfl
    exact hne (List.forall₂_nil_right_iff.mp hrel)
  refine ⟨m, hm, ⟨_, holds_create (hrel.imp fun c v h => ⟨h.1, h.2.2⟩) hne hstats haligned hm⟩, ?_⟩
  -- each input's budget bounds its stream, and the merge's budget is one above their sum
  refine (Merge.bounded_fields n
    (List.forall₂_map_right_iff.mpr (hrel.imp fun c v h => h.2.1).flip) hvs).mono ?_
  rw [budget_create hne hstats hm]
  omega

/-- A stream merge over inputs that stand at the starts of streams visiting the same fields
reads to its end as the merge of those streams, whatever bytes it records as claimed. Each
input's budget bounds every level of its stream and the groups it has left at any point, its
group bound is above the groups of its stream, and the inputs agree on their stat count. -/
theorem collect_create_claimed (hS : ViewSim S)
    (hB : ∀ c u, S c u → u.groups.length ≤ Cursor.budget c)
    (hrel : List.Forall₂ (fun c v => S c (View.start v) ∧ v.Bounded (Cursor.budget c) ∧
      (View.start v).Below (Cursor.numGroups c)) inputs vs)
    (hne : inputs ≠ []) (hstats : ∀ c ∈ inputs, Cursor.numStats c = n)
    (haligned : Merge.Aligned vs) :
    ∃ m, create inputs = .ok m ∧
      ∀ b, (Cursor.collect.apply { m with claimed := b }).1 = .ok (Merge.fields n vs) := by
  obtain ⟨m, hm, ⟨us, hholds⟩, hbound⟩ := start_create hrel hne hstats haligned
  refine ⟨m, hm, fun b => ?_⟩
  -- the merge moves as the replay of the merged stream, from its start
  have hstart : Shows S { m with claimed := b }
      ({ blocks := Merge.fields n vs, numStats := n, numGroups := 0 } : Replay).view := by
    rw [Replay.view_start]
    exact ⟨us, hholds.withClaimed b⟩
  have hbudget : Cursor.budget { m with claimed := b } = Cursor.budget m := rfl
  obtain ⟨r', hr'⟩ := Replay.collectFields_start hbound
    (show Cursor.budget m < Cursor.budget { m with claimed := b } + 1 by rw [hbudget]; omega) n 0
  have hagree := (shows_viewSim hS hB).simulation.collectFields_agree
    (Cursor.budget { m with claimed := b } + 1) (Cursor.budget { m with claimed := b } + 1)
    { m with claimed := b } _ hstart
  simp only [Cursor.collect, Step.apply_bind, Step.apply_get]
  rw [hagree.1, hr']

/-- A stream merge over inputs that stand at the starts of streams visiting the same fields
reads to its end as the merge of those streams. Each input's budget bounds every level of its
stream and the groups it has left at any point, its group bound is above the groups of its
stream, and the inputs agree on their stat count. -/
theorem collect_create (hS : ViewSim S) (hB : ∀ c u, S c u → u.groups.length ≤ Cursor.budget c)
    (hrel : List.Forall₂ (fun c v => S c (View.start v) ∧ v.Bounded (Cursor.budget c) ∧
      (View.start v).Below (Cursor.numGroups c)) inputs vs)
    (hne : inputs ≠ []) (hstats : ∀ c ∈ inputs, Cursor.numStats c = n)
    (haligned : Merge.Aligned vs) :
    ∃ m, create inputs = .ok m ∧ (Cursor.collect.apply m).1 = .ok (Merge.fields n vs) := by
  obtain ⟨m, hm, hcollect⟩ := collect_create_claimed hS hB hrel hne hstats haligned
  exact ⟨m, hm, hcollect m.claimed⟩

end Create

end Merger

end GroupStats
