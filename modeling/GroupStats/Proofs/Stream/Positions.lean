import GroupStats.Proofs.Stream.Simulation
import GroupStats.Proofs.Merge.Pointwise

/-!
# Where a replay can stand

The bound a replay announces is its stream's largest group plus one, wrapping at 32 bits,
raised to the bound it is given (`numGroups_ofBlocks_toNat`). It lies above every group of the
stream exactly when the top id 4294967295 is not among them (`groups_below_ofBlocks_iff`): the
top id makes the largest group plus one wrap to zero, and no 32-bit bound lies above it.

The positions of a replay count from one, zero standing before the first element. `Placed` says
they stay in the stream: each level at most one past the end of the block above it, and a level
off zero only while the level above is. Every advance keeps it (`Placed.step`), so every
sequence of advances from the start does (`Placed.replies`). What it does not say is that the
term position is zero once the fields have run out: running out of fields leaves the term
position where it was (`past_last_field_keeps_term`), which is where a stream held in memory
reads past its last field.
-/

namespace GroupStats

namespace Replay

open Cursor

/-! ### The announced bound -/

/-- The bound of a replay is its stream's largest group plus one, wrapping at 32 bits, raised
to the given bound. -/
theorem numGroups_ofBlocks_toNat (v : Ftgs) (n : Nat) (atLeast : UInt32) :
    (ofBlocks v n atLeast).numGroups.toNat =
      max ((v.maxGroup.toNat + 1) % 2 ^ 32) atLeast.toNat := by
  have hsum : (v.maxGroup + 1).toNat = (v.maxGroup.toNat + 1) % 2 ^ 32 := by
    rw [UInt32.toNat_add, UInt32.toNat_one]
  show (if v.maxGroup + 1 < atLeast then atLeast else v.maxGroup + 1).toNat = _
  split
  · rename_i h
    rw [UInt32.lt_iff_toNat_lt, hsum] at h
    omega
  · rename_i h
    rw [UInt32.lt_iff_toNat_lt, hsum] at h
    rw [hsum]
    omega

/-- The bound of a replay lies above every group of its stream exactly when none of them is the
top id. -/
theorem groups_below_ofBlocks_iff (v : Ftgs) (n : Nat) (atLeast : UInt32) :
    (∀ f ∈ v, ∀ t ∈ f.terms, ∀ g ∈ t.groups, g.group < (ofBlocks v n atLeast).numGroups) ↔
      ∀ f ∈ v, ∀ t ∈ f.terms, ∀ g ∈ t.groups, g.group ≠ 4294967295 := by
  constructor
  · intro h f hf t ht g hg htop
    have hlt := UInt32.lt_iff_toNat_lt.mp (h f hf t ht g hg)
    have hbound := (ofBlocks v n atLeast).numGroups.toNat_lt
    rw [htop] at hlt
    simp only [UInt32.reduceToNat] at hlt
    omega
  · exact group_lt_ofBlocks n atLeast

/-! ### Positions that stay in the stream -/

/-- The positions of a replay stay in its stream: each level at most one past the end of the
block above it, and a level off zero only while the level above is. -/
structure Placed (r : Replay) : Prop where
  field_le : r.fieldPos ≤ r.blocks.length + 1
  term_le : ∀ f, r.fieldBlock? = some f → r.termPos ≤ f.terms.length + 1
  group_le : ∀ t, r.termBlock? = some t → r.groupPos ≤ t.groups.length + 1
  field_of_term : r.termPos ≠ 0 → r.fieldPos ≠ 0
  term_of_group : r.groupPos ≠ 0 → r.termPos ≠ 0

variable {r : Replay}

theorem fieldPos_ne_zero {f : FieldBlock} (h : r.fieldBlock? = some f) : r.fieldPos ≠ 0 := by
  intro h0
  simp [fieldBlock?, h0] at h

theorem termPos_ne_zero {t : TermBlock} (h : r.termBlock? = some t) : r.termPos ≠ 0 := by
  intro h0
  simp [termBlock?, h0] at h

theorem fieldBlock?_past_end : { r with fieldPos := r.blocks.length + 1 }.fieldBlock? = none := by
  simp [fieldBlock?]

theorem termBlock?_past_end {f : FieldBlock} (hf : r.fieldBlock? = some f) (k : Nat) :
    { r with termPos := f.terms.length + 1, groupPos := k }.termBlock? = none := by
  rw [termBlock?_setTermPos r hf]
  simp

theorem placed_ofBlocks (v : Ftgs) (n : Nat) (atLeast : UInt32) : (ofBlocks v n atLeast).Placed where
  field_le := Nat.zero_le _
  term_le _ _ := Nat.zero_le _
  group_le _ _ := Nat.zero_le _
  field_of_term h := absurd rfl h
  term_of_group h := absurd rfl h

theorem Placed.nextField (h : r.Placed) : (nextField.apply r).2.Placed := by
  rw [nextField_apply]
  split
  · -- past the last field: the term and group positions stay as they were
    exact { field_le := Nat.le_refl _
            term_le := fun f hf => by simp [fieldBlock?_past_end] at hf
            group_le := fun t ht => by simp [termBlock?, fieldBlock?_past_end] at ht
            field_of_term := fun _ => Nat.succ_ne_zero _
            term_of_group := h.term_of_group }
  · exact { field_le := by dsimp only; omega
            term_le := fun _ _ => Nat.zero_le _
            group_le := fun _ _ => Nat.zero_le _
            field_of_term := fun _ => Nat.succ_ne_zero _
            term_of_group := fun h0 => absurd rfl h0 }

theorem Placed.nextTerm (h : r.Placed) : (nextTerm.apply r).2.Placed := by
  rw [nextTerm_apply]
  split
  · exact h
  · rename_i f hf
    split
    · exact { field_le := h.field_le
              term_le := fun f' hf' => by
                rw [fieldBlock?_setTermPos r _ r.groupPos, hf] at hf'
                cases hf'
                exact Nat.le_refl _
              group_le := fun t ht => by simp [termBlock?_past_end hf] at ht
              field_of_term := fun _ => fieldPos_ne_zero hf
              term_of_group := fun _ => Nat.succ_ne_zero _ }
    · exact { field_le := h.field_le
              term_le := fun f' hf' => by
                rw [fieldBlock?_setTermPos, hf] at hf'
                cases hf'
                dsimp only
                omega
              group_le := fun _ _ => Nat.zero_le _
              field_of_term := fun _ => fieldPos_ne_zero hf
              term_of_group := fun _ => Nat.succ_ne_zero _ }

theorem Placed.nextGroup (h : r.Placed) : (nextGroup.apply r).2.Placed := by
  rw [nextGroup_apply]
  split
  · exact h
  · rename_i t ht
    split
    · exact { field_le := h.field_le
              term_le := h.term_le
              group_le := fun t' ht' => by
                rw [termBlock?_setGroupPos, ht] at ht'
                cases ht'
                exact Nat.le_refl _
              field_of_term := h.field_of_term
              term_of_group := fun _ => termPos_ne_zero ht }
    · exact { field_le := h.field_le
              term_le := h.term_le
              group_le := fun t' ht' => by
                rw [termBlock?_setGroupPos, ht] at ht'
                cases ht'
                dsimp only
                omega
              field_of_term := h.field_of_term
              term_of_group := fun _ => termPos_ne_zero ht }

/-- The step lemma: every advance keeps a replay placed. -/
theorem Placed.step (h : r.Placed) (a : Advance) : (a.step.apply r).2.Placed := by
  cases a with
  | field => exact h.nextField
  | term => exact h.nextTerm
  | group => exact h.nextGroup

/-- A placed replay moves as itself and stays placed. -/
theorem placed_simulation : Simulation fun (c r : Replay) => c = r ∧ r.Placed where
  step a c r := by
    rintro ⟨rfl, h⟩
    exact ⟨rfl, rfl, h.step a⟩
  field _ _ h _ := h.1 ▸ rfl
  term _ _ h _ := h.1 ▸ ⟨rfl, rfl⟩
  group _ _ h _ := h.1 ▸ ⟨rfl, rfl⟩

/-- The run lemma: any sequence of advances keeps a replay placed. -/
theorem Placed.replies (h : r.Placed) (as : List Advance) : ((replies as).apply r).2.Placed :=
  (placed_simulation.replies_agree as r r ⟨rfl, h⟩).2.2

/-! ### Walks -/

/-- A move that advances leaves the replay where the advance does. -/
theorem move_apply (a : Advance) (r : Replay) :
    ∃ rep, (move a.move).apply r = (.ok rep, (a.step.apply r).2) := by
  obtain ⟨b, hb⟩ := step_ok r a
  rcases hstep : a.step.apply r with ⟨o, r'⟩
  rw [hstep] at hb
  cases hb
  cases a with
  | field =>
    simp only [Advance.step, cursor_nextField] at hstep
    cases b <;> simp [Advance.move, move, Step.apply_bind, hstep]
  | term =>
    simp only [Advance.step, cursor_nextTerm] at hstep
    cases b <;> simp [Advance.move, move, Step.apply_bind, hstep]
  | group =>
    simp only [Advance.step, cursor_nextGroup] at hstep
    cases b <;> simp [Advance.move, move, Step.apply_bind, hstep]

/-- The replay a sequence of advances leaves is the one its first advance leaves, moved by the
rest. -/
theorem replies_cons_state (a : Advance) (as : List Advance) (r : Replay) :
    ((replies (a :: as)).apply r).2 = ((replies as).apply (a.step.apply r).2).2 := by
  obtain ⟨rep, hmove⟩ := move_apply a r
  rw [replies_cons_apply hmove]

/-- A replay answers every sequence of advances. -/
theorem replies_ok (as : List Advance) (r : Replay) : ∃ rs, ((replies as).apply r).1 = .ok rs := by
  induction as generalizing r with
  | nil => exact ⟨[], rfl⟩
  | cons a as ih =>
    obtain ⟨rep, hmove⟩ := move_apply a r
    obtain ⟨rs, hrs⟩ := ih (a.step.apply r).2
    exact ⟨rep :: rs, by rw [replies_cons_apply hmove, hrs]; rfl⟩

/-- Advancing never changes the stream a replay walks. -/
theorem blocks_step (a : Advance) (r : Replay) : (a.step.apply r).2.blocks = r.blocks := by
  cases a with
  | field =>
    simp only [Advance.step, cursor_nextField, nextField_apply]
    split <;> rfl
  | term =>
    obtain ⟨j, k, h⟩ := nextTerm_frame r
    simp only [Advance.step, cursor_nextTerm, h]
  | group =>
    obtain ⟨k, h⟩ := nextGroup_frame r
    simp only [Advance.step, cursor_nextGroup, h]

theorem blocks_replies (as : List Advance) (r : Replay) :
    ((replies as).apply r).2.blocks = r.blocks := by
  induction as generalizing r with
  | nil => rfl
  | cons a as ih => rw [replies_cons_state, ih, blocks_step]

/-! ### Running out of fields -/

/-- Field advances from the start of a field level move the field position, one each, while
fields are left. -/
theorem replies_fields_state (hterm : r.termPos = 0) (hgroup : r.groupPos = 0) {k : Nat}
    (hk : r.fieldPos + k ≤ r.blocks.length) (rest : List Advance) :
    ((replies (List.replicate k .field ++ rest)).apply r).2 =
      ((replies rest).apply { r with fieldPos := r.fieldPos + k }).2 := by
  induction k generalizing r with
  | zero => rfl
  | succ k ih =>
    rw [List.replicate_succ, List.cons_append, replies_cons_state]
    simp only [Advance.step, cursor_nextField]
    rw [nextField_apply, if_neg (by omega)]
    rw [ih rfl rfl (by simp only; omega)]
    simp only [hterm, hgroup, Nat.add_assoc, Nat.add_comm 1 k]

/-- On the last field, a term advance and a field advance leave the replay past the last field;
its term position is then off zero exactly when there was a field to stand on. -/
theorem term_then_field_state (hpos : r.fieldPos = r.blocks.length) (hterm : r.termPos = 0) :
    ((replies [.term, .field]).apply r).2.fieldPos = r.blocks.length + 1 ∧
      (((replies [.term, .field]).apply r).2.termPos ≠ 0 ↔ r.blocks ≠ []) := by
  rw [replies_cons_state, replies_cons_state]
  simp only [Advance.step, cursor_nextTerm, cursor_nextField]
  rw [nextTerm_apply]
  split
  · -- no field to stand on: the stream is empty
    rename_i hf
    have hnil : r.blocks = [] := by
      cases hb : r.blocks with
      | nil => rfl
      | cons f fs => simp [fieldBlock?, hpos, hb] at hf
    simp [nextField_apply, hpos, hterm, hnil, replies]
  · rename_i f hf
    have hne : r.blocks ≠ [] := fun hnil => fieldPos_ne_zero hf (by simp [hpos, hnil])
    split <;> simp [nextField_apply, hpos, hne, replies]

/-- Reading every field of a stream, a term of the last one and one field more leaves the
replay past the last field; its term position is off zero exactly when the stream has a field. -/
theorem past_last_field_keeps_term (v : Ftgs) (n : Nat) (atLeast : UInt32) :
    ((replies (List.replicate v.length .field ++ [.term, .field])).apply
        (ofBlocks v n atLeast)).2.fieldPos = v.length + 1 ∧
      (((replies (List.replicate v.length .field ++ [.term, .field])).apply
        (ofBlocks v n atLeast)).2.termPos ≠ 0 ↔ v ≠ []) := by
  rw [replies_fields_state rfl rfl (by simp [ofBlocks])]
  exact term_then_field_state (by simp [ofBlocks]) rfl

end Replay

end GroupStats
