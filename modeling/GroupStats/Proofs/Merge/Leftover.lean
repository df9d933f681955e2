import GroupStats.Proofs.Merge.Merger
import GroupStats.Wire.Reader

/-!
# What a failed term leaves in a stream merge

A stream merge sums the groups its contributors send for a term into rows of totals, and when it
moves on it clears the rows of the groups the term listed. A term lists its groups only once every
contributor has sent them all, so a term that fails part-way lists none, and the rows it had
summed stay. Every later term adds onto them.

The steps that sum a term never look at the totals they add to (`AddsRows`): run from any totals
they do the same and add the same rows. So what a term reports is what the same merge with empty
totals reports, with the rows that clearing the last term left added in: the rows of groups the
merge did not list (`nextTerm_adds_leftover`). A merge that holds rows only for the groups it
lists reports exactly what its contributors send; one whose last term failed part-way does not
(`failed_term_stats_survive`).
-/

namespace GroupStats

namespace Merger

variable {τ : Type} {α : Type}

/-- A step of a merge that does the same from any totals and adds the same rows to them. -/
def AddsRows (x : Step (Merger τ) α) : Prop :=
  ∀ m : Merger τ, ∃ rs : List GroupRow, ∀ T : Totals,
    x.apply { m with totals := T } =
      ((x.apply m).1,
        { (x.apply m).2 with totals := rs.foldl (fun t r => t.add r.group r.stats) T })

namespace AddsRows

theorem of_totals {x : Step (Merger τ) α}
    (h : ∀ (m : Merger τ) (T : Totals),
      x.apply { m with totals := T } = ((x.apply m).1, { (x.apply m).2 with totals := T })) :
    AddsRows x :=
  fun m => ⟨[], h m⟩

theorem pure' (a : α) : AddsRows (pure a : Step (Merger τ) α) :=
  of_totals fun _ _ => rfl

theorem bind' {β : Type} {x : Step (Merger τ) α} {f : α → Step (Merger τ) β} (hx : AddsRows x)
    (hf : ∀ a, AddsRows (f a)) : AddsRows (x >>= f) := by
  intro m
  obtain ⟨rs₁, h₁⟩ := hx m
  rcases hxm : x.apply m with ⟨_ | a, m₁⟩
  · refine ⟨rs₁, fun T => ?_⟩
    rw [Step.apply_bind, Step.apply_bind, h₁, hxm]
  · -- the rows of the continuation are added after those of the first step
    obtain ⟨rs₂, h₂⟩ := hf a m₁
    refine ⟨rs₁ ++ rs₂, fun T => ?_⟩
    rw [Step.apply_bind, Step.apply_bind, h₁, hxm]
    exact (h₂ _).trans (by rw [List.foldl_append])

/-- A loop whose body adds rows adds rows. -/
theorem forIn' {β : Type} {body : β → Step (Merger τ) PUnit} (hb : ∀ b, AddsRows (body b)) :
    ∀ xs : List β,
      AddsRows (forIn xs PUnit.unit fun b _ => do body b; pure (ForInStep.yield PUnit.unit))
  | [] => pure' _
  | b :: bs => by
    rw [List.forIn_cons]
    refine bind' (bind' (hb b) fun _ => pure' _) fun r => ?_
    cases r with
    | done u => exact pure' u
    | yield u => exact forIn' hb bs

end AddsRows

section Steps

variable [Cursor τ]

omit [Cursor τ] in
theorem apply_onMerge_totals (x : Step (TermMerge (Lane τ)) α) (m : Merger τ) (T : Totals) :
    (onMerge x).apply { m with totals := T } =
      (((onMerge x).apply m).1, { ((onMerge x).apply m).2 with totals := T }) := by
  rcases m with ⟨stage, field, numStats, numGroups, totals, seen, groups, groupPos, closed, claimed⟩
  cases stage <;> rfl

omit [Cursor τ] in
/-- A step of the term merge leaves the groups of the merge as they were. -/
theorem groups_onMerge (x : Step (TermMerge (Lane τ)) α) (m : Merger τ) :
    ((onMerge x).apply m).2.groups = m.groups := by
  rcases m with ⟨stage, field, numStats, numGroups, totals, seen, groups, groupPos, closed, claimed⟩
  cases stage <;> rfl

omit [Cursor τ] in
theorem apply_onLane_totals (i : Nat) (x : Step τ α) (m : Merger τ) (T : Totals) :
    (onLane i x).apply { m with totals := T } =
      (((onLane i x).apply m).1, { ((onLane i x).apply m).2 with totals := T }) := by
  simp only [onLane, Step.apply_bind, apply_onMerge_totals]
  rcases (onMerge (TermMerge.onSource i (Lane.onInner x))).apply m with ⟨_ | r, m'⟩ <;> rfl

omit [Cursor τ] in
@[simp] theorem lane?_totals (m : Merger τ) (T : Totals) (i : Nat) :
    ({ m with totals := T } : Merger τ).lane? i = m.lane? i := rfl

/-- Adding the groups of one contributor adds to the totals the rows it sends, whatever the
totals held. -/
theorem addGroups_addsRows (i : Nat) : ∀ fuel, AddsRows (addGroups (τ := τ) i fuel)
  | 0 => AddsRows.pure' ()
  | fuel + 1 => by
    intro m
    rcases hl : (onLane i Cursor.nextGroup).apply m with ⟨_ | r, m₁⟩
    · -- the contributor failed to move
      refine ⟨[], fun T => ?_⟩
      simp only [addGroups, Step.apply_bind, apply_onLane_totals, hl]
      rfl
    by_cases hr : r ≠ some true
    · -- the contributor has no group left
      refine ⟨[], fun T => ?_⟩
      simp only [addGroups, Step.apply_bind, apply_onLane_totals, hl, if_pos hr]
      rfl
    cases hc : m₁.lane? i with
    | none =>
      refine ⟨[], fun T => ?_⟩
      simp only [addGroups, Step.apply_bind, apply_onLane_totals, hl, if_neg hr,
        Step.apply_get, lane?_totals, hc]
      rfl
    | some c =>
      by_cases hg : Cursor.group c ≥ m₁.numGroups
      · -- a group past the bound fails the term
        refine ⟨[], fun T => ?_⟩
        simp only [addGroups, Step.apply_bind, apply_onLane_totals, hl, if_neg hr,
          Step.apply_get, lane?_totals, hc, if_pos hg]
        rfl
      · -- the group is added, and the contributor goes on
        obtain ⟨rs, h⟩ := addGroups_addsRows i fuel
          { m₁ with seen := m₁.seen.insert (Cursor.group c) }
        refine ⟨⟨Cursor.group c, Cursor.stats c⟩ :: rs, fun T => ?_⟩
        simp only [addGroups, Step.apply_bind, apply_onLane_totals, hl, if_neg hr,
          Step.apply_get, lane?_totals, hc, if_neg hg, Step.apply_set]
        rw [h (T.add (Cursor.group c) (Cursor.stats c)),
          h (m₁.totals.add (Cursor.group c) (Cursor.stats c))]
        rfl

/-- Summing the contributors of a term adds the rows they send to the totals, whatever these
held; only the groups and the seen groups are set after it. -/
theorem accumulate_addsRows : AddsRows (accumulate (τ := τ)) := by
  rintro ⟨stage, field, numStats, numGroups, totals, seen, groups, groupPos, closed, claimed⟩
  cases stage with
  | merging merge =>
    obtain ⟨rs, h⟩ := AddsRows.bind'
      (AddsRows.forIn' (fun i => addGroups_addsRows i
        ((((merge.sources[i]?).map (·.inner)).map Cursor.budget).getD 0 + 1)) merge.contributors)
      (fun _ => AddsRows.of_totals fun _ _ => rfl :
        ∀ _ : PUnit, AddsRows (modify fun m : Merger τ =>
          { m with seen := m.seen.sort, groups := m.seen.sorted }))
      ⟨.merging merge, field, numStats, numGroups, totals, seen, groups, groupPos, closed, claimed⟩
    exact ⟨rs, h⟩
  | idle lanes => exact ⟨[], fun T => rfl⟩
  | empty => exact ⟨[], fun T => rfl⟩

omit [Cursor τ] in
theorem resetTerm_totals (m : Merger τ) (T : Totals) :
    ({ m with totals := T } : Merger τ).resetTerm = { m.resetTerm with totals := T.reset m.groups } :=
  rfl

/-- Moving to the next term clears the rows of the groups the last term listed and then adds
rows, the same whatever the totals held. -/
theorem nextTerm_totals (m : Merger τ) : ∃ rs : List GroupRow, ∀ T : Totals,
    nextTerm.apply { m with totals := T } =
      ((nextTerm.apply m).1, { (nextTerm.apply m).2 with
        totals := rs.foldl (fun t r => t.add r.group r.stats) (T.reset m.groups) }) := by
  rcases ho : (onMerge (TermMerge.next (σ := Lane τ))).apply m.resetTerm with ⟨_ | r, m₁⟩
  · -- the term merge failed
    refine ⟨[], fun T => ?_⟩
    simp only [nextTerm, Step.apply_bind, Step.apply_modify, resetTerm_totals,
      apply_onMerge_totals, ho]
    rfl
  rcases r with _ | _ | _
  · refine ⟨[], fun T => ?_⟩
    simp only [nextTerm, Step.apply_bind, Step.apply_modify, resetTerm_totals,
      apply_onMerge_totals, ho]
    rfl
  · -- the field has no term left
    refine ⟨[], fun T => ?_⟩
    simp only [nextTerm, Step.apply_bind, Step.apply_modify, resetTerm_totals,
      apply_onMerge_totals, ho]
    rfl
  · -- a term: its contributors are summed
    obtain ⟨rs, h⟩ := accumulate_addsRows m₁
    refine ⟨rs, fun T => ?_⟩
    simp only [nextTerm, Step.apply_bind, Step.apply_modify, resetTerm_totals,
      apply_onMerge_totals, ho]
    rw [h]
    rcases accumulate.apply m₁ with ⟨_ | _, m₂⟩ <;> rfl

/-! ### The groups a term lists -/

omit [Cursor τ] in
theorem groups_onLane (i : Nat) (x : Step τ α) (m : Merger τ) :
    ((onLane i x).apply m).2.groups = m.groups := by
  simp only [onLane, Step.apply_bind]
  have h := groups_onMerge (TermMerge.onSource i (Lane.onInner x)) m
  rcases ho : (onMerge (TermMerge.onSource i (Lane.onInner x))).apply m with ⟨_ | r, m'⟩ <;>
    simpa [ho] using h

/-- Adding the groups of a contributor lists none of them. -/
theorem addGroups_groups (i : Nat) :
    ∀ fuel, Step.Preserves (fun m : Merger τ => m.groups) (addGroups i fuel)
  | 0 => fun _ => rfl
  | fuel + 1 => by
    intro m
    rcases hl : (onLane i Cursor.nextGroup).apply m with ⟨_ | r, m₁⟩
    · simpa [addGroups, hl] using groups_onLane i Cursor.nextGroup m
    have h₁ : m₁.groups = m.groups := by simpa [hl] using groups_onLane i Cursor.nextGroup m
    by_cases hr : r ≠ some true
    · simp only [addGroups, Step.apply_bind, hl, if_pos hr, Step.apply_pure]
      exact h₁
    cases hc : m₁.lane? i with
    | none =>
      simp only [addGroups, Step.apply_bind, hl, if_neg hr, Step.apply_get, hc, Step.apply_pure]
      exact h₁
    | some c =>
      by_cases hg : Cursor.group c ≥ m₁.numGroups
      · simp only [addGroups, Step.apply_bind, hl, if_neg hr, Step.apply_get, hc, if_pos hg,
          Step.apply_throw]
        exact h₁
      · simp only [addGroups, Step.apply_bind, hl, if_neg hr, Step.apply_get, hc, if_neg hg,
          Step.apply_set]
        exact (addGroups_groups i fuel _).trans h₁

omit [Cursor τ] in
/-- A loop whose body keeps a view of the state keeps it. -/
theorem preserves_forIn {σ β γ : Type} {view : σ → γ} {body : β → Step σ PUnit}
    (hb : ∀ b, Step.Preserves view (body b)) :
    ∀ xs : List β, Step.Preserves view
      (forIn xs PUnit.unit fun b _ => do body b; pure (ForInStep.yield PUnit.unit))
  | [] => Step.Preserves.pure' _
  | b :: bs => by
    rw [List.forIn_cons]
    refine Step.Preserves.bind' (Step.Preserves.bind' (hb b) fun _ => Step.Preserves.pure' _)
      fun r => ?_
    cases r with
    | done u => exact Step.Preserves.pure' u
    | yield u => exact preserves_forIn hb bs

/-- Summing a term either goes through, or fails with the groups of the merge as they were. -/
theorem accumulate_ok_or_groups (m : Merger τ) :
    (accumulate.apply m).1 = .ok () ∨ (accumulate.apply m).2.groups = m.groups := by
  rcases m with ⟨stage, field, numStats, numGroups, totals, seen, groups, groupPos, closed, claimed⟩
  cases stage with
  | merging merge =>
    -- the loop over the contributors keeps the groups; only its success sets them
    have hkeep : ∀ {x : Step (Merger τ) PUnit}, Step.Preserves (fun m : Merger τ => m.groups) x →
        ∀ st e st', x.apply st = (.error e, st') → st'.groups = st.groups := by
      intro x hx st e st' h
      simpa [h] using hx st
    simp only [accumulate, Step.apply_bind, Step.apply_get]
    split
    · exact .inl rfl
    · rename_i e st' hloop
      exact .inr (hkeep (preserves_forIn (fun i => addGroups_groups i _) _) _ _ _ hloop)
  | idle lanes => exact .inl rfl
  | empty => exact .inl rfl

/-- A move to the next term that does not reach one lists no group. -/
theorem nextTerm_groups (m : Merger τ) (h : (nextTerm.apply m).1 ≠ .ok true) :
    (nextTerm.apply m).2.groups = [] := by
  have hreset : m.resetTerm.groups = [] := rfl
  have ho := groups_onMerge (TermMerge.next (σ := Lane τ)) m.resetTerm
  rcases hm : (onMerge (TermMerge.next (σ := Lane τ))).apply m.resetTerm with ⟨_ | r, m₁⟩
  · simpa [nextTerm, hm, hreset] using ho
  rcases r with _ | _ | _
  · simpa [nextTerm, hm, hreset] using ho
  · simpa [nextTerm, hm, hreset] using ho
  · -- the term was reached, so summing it failed, before it listed its groups
    have h₁ : m₁.groups = [] := by simpa [hm, hreset] using ho
    simp only [nextTerm, Step.apply_bind, Step.apply_modify, hm] at h ⊢
    rcases hacc : accumulate.apply m₁ with ⟨_ | _, m₂⟩
    · have := (accumulate_ok_or_groups m₁).resolve_left (by rw [hacc]; simp)
      rw [hacc] at this
      exact this.trans h₁
    · rw [hacc] at h
      exact absurd rfl h

/-! ### What a term reports -/

/-- What a move to the next term reports is what the same merge with empty totals reports, with
the rows that clearing the last term left added in: the rows of the groups that term did not
list. A move that does not reach a term, because the term merge or a contributor failed, lists no
group, so every row it summed is left over for the next move in turn. -/
theorem nextTerm_adds_leftover (m : Merger τ) :
    ∃ rs : List GroupRow,
      (nextTerm.apply m).2.totals =
        rs.foldl (fun t r => t.add r.group r.stats) (m.totals.reset m.groups) ∧
      nextTerm.apply { m with totals := {} } =
        ((nextTerm.apply m).1,
          { (nextTerm.apply m).2 with totals := rs.foldl (fun t r => t.add r.group r.stats) {} }) ∧
      ((nextTerm.apply m).1 ≠ .ok true → (nextTerm.apply m).2.groups = []) := by
  obtain ⟨rs, h⟩ := nextTerm_totals m
  exact ⟨rs, congrArg (fun p => p.2.totals) (h m.totals), h {}, nextTerm_groups m⟩

end Steps

/-- One input whose first term sends group 1 with the stat 5 and then a record of the unknown tag
5, and whose second term sends group 1 with the stat 7. The move to the first term fails, and the
second term reports 12 for group 1: the 5 read for the failed term is still in the totals. -/
theorem failed_term_stats_survive :
    ∃ m, Merger.create [Wire.Reader.ofBytes
        [0x01, 0, 0, 0, 0, 0x01, 0x66, 0x02, 0, 0, 0, 0, 0, 0, 0, 0x01, 0, 0, 0, 0, 0, 0, 0, 0x01,
          0x04, 0, 0, 0, 0x01, 0, 0, 0, 0, 0, 0, 0, 0x05, 0x05, 0x02, 0, 0, 0, 0, 0, 0, 0, 0x02, 0,
          0, 0, 0, 0, 0, 0, 0x01, 0x04, 0, 0, 0, 0x01, 0, 0, 0, 0, 0, 0, 0, 0x07] 1 2] = .ok m ∧
      let m₁ := (Cursor.nextField.apply m).2
      (Cursor.nextTerm.apply m₁).1 = .error (.corrupt (.unknownTag 5)) ∧
      let m₂ := (Cursor.nextTerm.apply (Cursor.nextTerm.apply m₁).2).2
      let m₃ := (Cursor.nextGroup.apply m₂).2
      Cursor.group m₃ = 1 ∧ Cursor.stats m₃ = [12] := by
  refine ⟨_, rfl, ?_⟩
  cbv
  decide

end Merger

end GroupStats
