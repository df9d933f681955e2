import GroupStats.Stream.Memory
import GroupStats.Proofs.Stream.Positions

/-!
# Walking a stream held in memory

A stream held in memory moves as its replay does but for one read: a group advance reads the
current field whenever a term has been read. Every move is the replay's own
(`move_apply_of_not_overread`) save a group advance taken after a term was read and the fields
ran out, which reads past the last field and stops there (`move_apply_of_overread`).

`overreads` says whether a walk makes such a group advance. A walk that does not gets the
replay's replies and leaves the stream where the replay stands (`replies_of_not_overreads`);
one that does stops at that advance, reading the index one past the last field
(`replies_of_overreads`). Every stream with a field has such a walk: all its fields, a term,
one field more and a group (`overreads_past_last_field`).
-/

namespace GroupStats

namespace MemoryStream

open Cursor

variable {α : Type}

@[simp] theorem apply_onReplay (x : Step Replay α) (m : MemoryStream) :
    (onReplay x).apply m = ((x.apply m.replay).1, ⟨(x.apply m.replay).2⟩) := rfl

@[simp] theorem cursor_nextField :
    (Cursor.nextField : Step MemoryStream Bool) = onReplay Replay.nextField := rfl

@[simp] theorem cursor_nextTerm :
    (Cursor.nextTerm : Step MemoryStream Bool) = onReplay Replay.nextTerm := rfl

@[simp] theorem cursor_nextGroup : (Cursor.nextGroup : Step MemoryStream Bool) = nextGroup := rfl

@[simp] theorem cursor_numGroups (m : MemoryStream) : Cursor.numGroups m = m.replay.numGroups :=
  rfl

@[simp] theorem cursor_field (m : MemoryStream) : Cursor.field m = Cursor.field m.replay := rfl

@[simp] theorem cursor_term (m : MemoryStream) : Cursor.term m = Cursor.term m.replay := rfl

@[simp] theorem cursor_docFreq (m : MemoryStream) : Cursor.docFreq m = Cursor.docFreq m.replay :=
  rfl

@[simp] theorem cursor_group (m : MemoryStream) : Cursor.group m = Cursor.group m.replay := rfl

@[simp] theorem cursor_stats (m : MemoryStream) : Cursor.stats m = Cursor.stats m.replay := rfl

theorem nextGroup_apply (m : MemoryStream) : nextGroup.apply m =
    if readsPastFields m.replay then
      (.error (.outOfBounds (m.replay.fieldPos - 1) m.replay.blocks.length), m)
    else ((Replay.nextGroup.apply m.replay).1, ⟨(Replay.nextGroup.apply m.replay).2⟩) := by
  by_cases h : readsPastFields m.replay <;> simp [nextGroup, h]

/-! ### One move -/

/-- Every move but a group advance that reads past the fields is the replay's own. -/
theorem move_apply_of_not_overread (a : Advance) (r : Replay)
    (h : ¬(a = .group ∧ readsPastFields r = true)) :
    (move a.move).apply (⟨r⟩ : MemoryStream) =
      (((move a.move).apply r).1, ⟨((move a.move).apply r).2⟩) := by
  cases a with
  | field =>
    rcases hs : Replay.nextField.apply r with ⟨_ | b, r'⟩
    · simp [Advance.move, move, hs]
    · cases b <;> simp [Advance.move, move, hs]
  | term =>
    rcases hs : Replay.nextTerm.apply r with ⟨_ | b, r'⟩
    · simp [Advance.move, move, hs]
    · cases b <;> simp [Advance.move, move, hs]
  | group =>
    have hread : readsPastFields r = false := by simpa using h
    rcases hs : Replay.nextGroup.apply r with ⟨_ | b, r'⟩
    · simp [Advance.move, move, nextGroup_apply, hread, hs]
    · cases b <;> simp [Advance.move, move, nextGroup_apply, hread, hs]

/-- A group advance after a term was read and the fields ran out stops, reading the field at
the position it stands on. -/
theorem move_apply_of_overread {r : Replay} (h : readsPastFields r = true) :
    (move Advance.group.move).apply (⟨r⟩ : MemoryStream) =
      (.error (.outOfBounds (r.fieldPos - 1) r.blocks.length), ⟨r⟩) := by
  simp [Advance.move, move, nextGroup_apply, h]

/-- A move that does not read past the fields answers as the replay's and leaves the stream
where the advance leaves the replay. -/
theorem move_apply_ok (a : Advance) (r : Replay) (h : ¬(a = .group ∧ readsPastFields r = true)) :
    ∃ rep, (move a.move).apply r = (.ok rep, (a.step.apply r).2) ∧
      (move a.move).apply (⟨r⟩ : MemoryStream) = (.ok rep, ⟨(a.step.apply r).2⟩) := by
  obtain ⟨rep, hmove⟩ := Replay.move_apply a r
  exact ⟨rep, hmove, by rw [move_apply_of_not_overread a r h, hmove]⟩

/-- On a placed replay, a read past the fields stands one past the last field. -/
theorem fieldPos_of_readsPastFields {r : Replay} (hp : r.Placed) (h : readsPastFields r = true) :
    r.fieldPos = r.blocks.length + 1 := by
  simp only [readsPastFields, Bool.and_eq_true, bne_iff_ne, ne_eq, Option.isNone_iff_eq_none]
    at h
  obtain ⟨hterm, hnone⟩ := h
  have hfield := hp.field_of_term hterm
  -- no field stands at a nonzero position inside the stream
  have hpast : r.blocks.length ≤ r.fieldPos - 1 := by
    simpa [Replay.fieldBlock?, hfield] using hnone
  have := hp.field_le
  omega

/-! ### Walks -/

/-- Whether a walk from the replay `r` makes a group advance that reads past the fields. -/
def overreads : List Advance → Replay → Bool
  | [], _ => false
  | a :: as, r => (a == .group && readsPastFields r) || overreads as (a.step.apply r).2

theorem overreads_cons_eq_false {a : Advance} {as : List Advance} {r : Replay} :
    overreads (a :: as) r = false ↔
      ¬(a = .group ∧ readsPastFields r = true) ∧ overreads as (a.step.apply r).2 = false := by
  simp [overreads]

/-- A walk that makes no group advance never reads past the fields. -/
theorem overreads_of_group_not_mem {as : List Advance} (h : Advance.group ∉ as) (r : Replay) :
    overreads as r = false := by
  induction as generalizing r with
  | nil => rfl
  | cons a as ih =>
    have ha : a ≠ .group := fun he => h (he ▸ List.mem_cons_self)
    exact overreads_cons_eq_false.mpr
      ⟨fun hg => ha hg.1, ih (fun hm => h (List.mem_cons_of_mem a hm)) _⟩

/-- A walk of two parts reads past the fields when its first part does, or its second part from
where the first leaves the replay. -/
theorem overreads_append (l l' : List Advance) (r : Replay) :
    overreads (l ++ l') r = (overreads l r || overreads l' ((replies l).apply r).2) := by
  induction l generalizing r with
  | nil => rfl
  | cons a l ih =>
    rw [List.cons_append, overreads, overreads, ih, Replay.replies_cons_state, Bool.or_assoc]

/-- The run lemma: a walk that never reads past the fields gets the replay's replies and leaves
the stream where the replay stands. -/
theorem replies_of_not_overreads (as : List Advance) (r : Replay) (h : overreads as r = false) :
    (replies as).apply (⟨r⟩ : MemoryStream) =
      (((replies as).apply r).1, ⟨((replies as).apply r).2⟩) := by
  induction as generalizing r with
  | nil => rfl
  | cons a as ih =>
    obtain ⟨hnow, hlater⟩ := overreads_cons_eq_false.mp h
    obtain ⟨rep, hmove, hmem⟩ := move_apply_ok a r hnow
    rw [replies_cons_apply hmem, replies_cons_apply hmove, ih _ hlater]

/-- The run lemma for a walk that reads past the fields: from a placed replay it stops, reading
the index one past the last field. -/
theorem replies_of_overreads (as : List Advance) {r : Replay} (hp : r.Placed)
    (h : overreads as r = true) :
    ((replies as).apply (⟨r⟩ : MemoryStream)).1 =
      .error (.outOfBounds r.blocks.length r.blocks.length) := by
  induction as generalizing r with
  | nil => simp [overreads] at h
  | cons a as ih =>
    by_cases hnow : a = .group ∧ readsPastFields r = true
    · -- this advance reads past the fields
      obtain ⟨rfl, hread⟩ := hnow
      simp [replies, move_apply_of_overread hread, fieldPos_of_readsPastFields hp hread]
    · -- the advance is the replay's own, and the rest of the walk reads past the fields
      have hlater : overreads as (a.step.apply r).2 = true := by
        simpa [overreads, hnow] using h
      obtain ⟨rep, -, hmem⟩ := move_apply_ok a r hnow
      have hrest := ih (hp.step a) hlater
      rw [Replay.blocks_step] at hrest
      rw [replies_cons_apply hmem, hrest]
      rfl

/-- Reading every field of a stream, a term and one field more, a group advance reads past the
fields exactly when the stream has a field. -/
theorem overreads_past_last_field (v : Ftgs) (n : Nat) (atLeast : UInt32) :
    overreads (List.replicate v.length .field ++ [.term, .field, .group])
        (Replay.ofBlocks v n atLeast) = true ↔ v ≠ [] := by
  have hsplit : List.replicate v.length Advance.field ++ [.term, .field, .group] =
      (List.replicate v.length .field ++ [.term, .field]) ++ [.group] := by simp
  have hbefore : overreads (List.replicate v.length .field ++ [.term, .field])
      (Replay.ofBlocks v n atLeast) = false :=
    overreads_of_group_not_mem (by simp) _
  obtain ⟨hpos, hterm⟩ := Replay.past_last_field_keeps_term v n atLeast
  have hblocks : ((replies (List.replicate v.length .field ++ [.term, .field])).apply
      (Replay.ofBlocks v n atLeast)).2.blocks = v :=
    Replay.blocks_replies _ _
  rw [hsplit, overreads_append, hbefore, Bool.false_or]
  simp [overreads, readsPastFields, Replay.fieldBlock?, hpos, hblocks, ← hterm]

/-- A stream held in memory keeps its bound and its walks right, save for the top group and one
read past the fields: the bound lies above every group exactly when none is 4294967295, and a
walk from the start answers as the replay does unless it makes a group advance after a term was
read and the fields ran out, where it stops. -/
theorem bound_and_overread (v : Ftgs) (n : Nat) (atLeast : UInt32) (as : List Advance) :
    (Cursor.numGroups (ofBlocks v n atLeast)).toNat =
        max ((v.maxGroup.toNat + 1) % 2 ^ 32) atLeast.toNat ∧
      ((∀ f ∈ v, ∀ t ∈ f.terms, ∀ g ∈ t.groups, g.group < Cursor.numGroups (ofBlocks v n atLeast)) ↔
        ∀ f ∈ v, ∀ t ∈ f.terms, ∀ g ∈ t.groups, g.group ≠ 4294967295) ∧
      (overreads as (ofBlocks v n atLeast).replay = false →
        (replies as).apply (ofBlocks v n atLeast) =
            (((replies as).apply (ofBlocks v n atLeast).replay).1,
              ⟨((replies as).apply (ofBlocks v n atLeast).replay).2⟩) ∧
          (∃ rs, ((replies as).apply (ofBlocks v n atLeast).replay).1 = .ok rs) ∧
          ((replies as).apply (ofBlocks v n atLeast).replay).2.Placed) ∧
      (overreads as (ofBlocks v n atLeast).replay = true →
        ((replies as).apply (ofBlocks v n atLeast)).1 = .error (.outOfBounds v.length v.length)) ∧
      (overreads (List.replicate v.length .field ++ [.term, .field, .group])
        (ofBlocks v n atLeast).replay = true ↔ v ≠ []) := by
  have hstart := Replay.placed_ofBlocks v n atLeast
  refine ⟨Replay.numGroups_ofBlocks_toNat v n atLeast, Replay.groups_below_ofBlocks_iff v n atLeast,
    fun hsafe => ⟨replies_of_not_overreads as _ hsafe, Replay.replies_ok as _,
      hstart.replies as⟩,
    fun hover => replies_of_overreads as hstart hover, overreads_past_last_field v n atLeast⟩

/-- A stream whose one group is the top id announces the bound zero, below that group; and a
stream with a field stops when, after its field, a term and one field more, it looks for a
group. -/
theorem top_group_wraps_and_overread :
    Cursor.numGroups (ofBlocks [⟨⟨"f", .int⟩, [⟨.int 1, 1, [⟨4294967295, [3]⟩]⟩]⟩] 1) = 0 ∧
      ((replies [.field, .term, .field, .group]).apply
        (ofBlocks [⟨⟨"f", .int⟩, [⟨.int 1, 1, [⟨3, [5]⟩]⟩]⟩] 1)).1 = .error (.outOfBounds 1 1) :=
  ⟨rfl, rfl⟩

end MemoryStream

end GroupStats
