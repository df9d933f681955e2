import GroupStats.Proofs.Stream.Replay

/-!
# Cursors that move as a replay

A cursor walks a stream correctly when it moves as the replay of that stream does. A
`Replay.Simulation` is a relation between the cursor's states and replay states under which
every advance gives the same answer and leads to related states, and under which the cursor
shows the field, term and group the replay stands on. From one step to all: under a
simulation any sequence of advances gets the same replies from the cursor as from the
replay, and reading the cursor back gives what reading the replay gives.
-/

namespace GroupStats

namespace Cursor

/-- One of the three advances of a cursor. -/
inductive Advance where
  | field
  | term
  | group
  deriving DecidableEq, Repr

/-- The move an advance makes. -/
def Advance.move : Advance → Move
  | .field => .nextField
  | .term => .nextTerm
  | .group => .nextGroup

variable {σ : Type} [Cursor σ]

/-- The step of an advance. -/
def Advance.step : Advance → Step σ Bool
  | .field => nextField
  | .term => nextTerm
  | .group => nextGroup

/-- The replies to a sequence of advances. -/
def replies (as : List Advance) : Step σ (List Reply) := as.mapM fun a => move a.move

theorem replies_cons (a : Advance) (as : List Advance) :
    (replies (a :: as) : Step σ (List Reply)) = do
      let rep ← move a.move
      let reps ← replies as
      return rep :: reps := by
  simp only [replies, List.mapM_cons]

/-- A walk whose first move answers `rep` answers `rep` ahead of the rest of the walk, taken
from where that move leaves the cursor. -/
theorem replies_cons_apply {a : Advance} {as : List Advance} {c c' : σ} {rep : Reply}
    (h : (move a.move).apply c = (.ok rep, c')) :
    (replies (a :: as)).apply c =
      (((replies as).apply c').1.map (rep :: ·), ((replies as).apply c').2) := by
  rw [replies_cons, Step.apply_bind, h]
  simp only [Step.apply_bind]
  rcases (replies as : Step σ (List Reply)).apply c' with ⟨_ | _, _⟩ <;> rfl

end Cursor

namespace Replay

open Cursor

/-! ### What a move leaves in place -/

variable (r : Replay)

theorem nextGroup_frame : ∃ k, (nextGroup.apply r).2 = { r with groupPos := k } := by
  rw [nextGroup_apply]
  split
  · exact ⟨r.groupPos, rfl⟩
  · split
    · exact ⟨_, rfl⟩
    · exact ⟨_, rfl⟩

theorem nextTerm_frame :
    ∃ j k, (nextTerm.apply r).2 = { r with termPos := j, groupPos := k } := by
  rw [nextTerm_apply]
  split
  · exact ⟨r.termPos, r.groupPos, rfl⟩
  · split
    · exact ⟨_, r.groupPos, rfl⟩
    · exact ⟨_, _, rfl⟩

theorem nextGroup_ok : ∃ b, (nextGroup.apply r).1 = .ok b := by
  rw [nextGroup_apply]
  split
  · exact ⟨_, rfl⟩
  · split
    · exact ⟨_, rfl⟩
    · exact ⟨_, rfl⟩

theorem nextTerm_ok : ∃ b, (nextTerm.apply r).1 = .ok b := by
  rw [nextTerm_apply]
  split
  · exact ⟨_, rfl⟩
  · split
    · exact ⟨_, rfl⟩
    · exact ⟨_, rfl⟩

theorem fieldBlock?_of_nextField (h : (nextField.apply r).1 = .ok true) :
    (nextField.apply r).2.fieldBlock?.isSome := by
  by_cases hend : r.blocks.length ≤ r.fieldPos
  · simp [nextField_apply, hend] at h
  · have hlt : r.fieldPos < r.blocks.length := Nat.lt_of_not_le hend
    simp [nextField_apply, hend, fieldBlock?_setFieldPos, List.getElem?_eq_getElem hlt]

theorem termBlock?_of_nextTerm (h : (nextTerm.apply r).1 = .ok true) :
    (nextTerm.apply r).2.termBlock?.isSome := by
  cases hf : r.fieldBlock? with
  | none => simp [nextTerm_apply, hf] at h
  | some f =>
    by_cases hend : f.terms.length ≤ r.termPos
    · simp [nextTerm_apply, hf, hend] at h
    · have hlt : r.termPos < f.terms.length := Nat.lt_of_not_le hend
      simp [nextTerm_apply, hf, hend, termBlock?_setTermPos _ hf, List.getElem?_eq_getElem hlt]

theorem groupRow?_of_nextGroup (h : (nextGroup.apply r).1 = .ok true) :
    (nextGroup.apply r).2.groupRow?.isSome := by
  cases ht : r.termBlock? with
  | none => simp [nextGroup_apply, ht] at h
  | some t =>
    by_cases hend : t.groups.length ≤ r.groupPos
    · simp [nextGroup_apply, ht, hend] at h
    · have hlt : r.groupPos < t.groups.length := Nat.lt_of_not_le hend
      simp [nextGroup_apply, ht, hend, groupRow?_setGroupPos _ ht, List.getElem?_eq_getElem hlt]

/-- Where a replay stands in the stream down to the term: stream, field and term positions. -/
def termSpot (r : Replay) : Ftgs × Nat × Nat := (r.blocks, r.fieldPos, r.termPos)

/-- Where a replay stands in the stream down to the field. -/
def fieldSpot (r : Replay) : Ftgs × Nat := (r.blocks, r.fieldPos)

theorem nextGroup_preserves : Step.Preserves termSpot nextGroup := by
  intro r
  obtain ⟨k, hk⟩ := nextGroup_frame r
  rw [hk]
  rfl

theorem nextTerm_preserves : Step.Preserves fieldSpot nextTerm := by
  intro r
  obtain ⟨j, k, hjk⟩ := nextTerm_frame r
  rw [hjk]
  rfl

/-- Reading groups keeps the replay on its term. -/
theorem collectGroups_preserves (fuel : Nat) :
    Step.Preserves termSpot (collectGroups fuel : Step Replay (List GroupRow)) := by
  induction fuel with
  | zero => exact Step.Preserves.pure' _
  | succ fuel ih =>
    exact Step.Preserves.bind' nextGroup_preserves fun _ =>
      Step.Preserves.ite' (Step.Preserves.bind' Step.Preserves.get' fun _ =>
        Step.Preserves.bind' ih fun _ => Step.Preserves.pure' _) (Step.Preserves.pure' _)

theorem Preserves.fieldSpot_of_termSpot {α : Type} {x : Step Replay α}
    (h : Step.Preserves termSpot x) : Step.Preserves fieldSpot x := by
  intro r
  have := h r
  simp only [termSpot, Prod.mk.injEq] at this
  simp [fieldSpot, this.1, this.2.1]

/-- Reading terms keeps the replay on its field. -/
theorem collectTerms_preserves (fuel n : Nat) :
    Step.Preserves fieldSpot (collectTerms fuel n : Step Replay (List TermBlock)) := by
  induction n with
  | zero => exact Step.Preserves.pure' _
  | succ n ih =>
    exact Step.Preserves.bind' nextTerm_preserves fun _ =>
      Step.Preserves.ite' (Step.Preserves.bind' Step.Preserves.get' fun _ =>
        Step.Preserves.bind' (Preserves.fieldSpot_of_termSpot (collectGroups_preserves fuel))
          fun _ => Step.Preserves.bind' ih fun _ => Step.Preserves.pure' _)
        (Step.Preserves.pure' _)

theorem fieldBlock?_of_fieldSpot {r r' : Replay} (h : fieldSpot r' = fieldSpot r) :
    r'.fieldBlock? = r.fieldBlock? := by
  simp only [fieldSpot, Prod.mk.injEq] at h
  simp [fieldBlock?, h.1, h.2]

theorem termBlock?_of_termSpot {r r' : Replay} (h : termSpot r' = termSpot r) :
    r'.termBlock? = r.termBlock? := by
  simp only [termSpot, Prod.mk.injEq] at h
  simp [termBlock?, fieldBlock?, h.1, h.2.1, h.2.2]

theorem nextField_ok : ∃ b, (nextField.apply r).1 = .ok b := by
  rw [nextField_apply]
  split
  · exact ⟨_, rfl⟩
  · exact ⟨_, rfl⟩

/-- A replay never fails to advance. -/
theorem step_ok (a : Advance) : ∃ b, (a.step.apply r).1 = .ok b := by
  cases a with
  | field => exact nextField_ok r
  | term => exact nextTerm_ok r
  | group => exact nextGroup_ok r

/-! ### Simulations -/

variable {σ : Type} [Cursor σ]

/-- Under `R` a cursor moves as a replay does: every advance from related states gives the same
answer and leads to related states, and the cursor shows the field, term and group the replay
stands on. -/
structure Simulation (R : σ → Replay → Prop) : Prop where
  step : ∀ a : Advance, Step.Agree R a.step a.step
  field : ∀ c r, R c r → r.fieldBlock?.isSome → Cursor.field c = Cursor.field r
  term : ∀ c r, R c r → r.termBlock?.isSome →
    Cursor.term c = Cursor.term r ∧ Cursor.docFreq c = Cursor.docFreq r
  group : ∀ c r, R c r → r.groupRow?.isSome →
    Cursor.group c = Cursor.group r ∧ Cursor.stats c = Cursor.stats r

variable {R : σ → Replay → Prop}

/-- A step of a replay, split into its answer and the state it leaves. -/
theorem apply_eq {α : Type} (x : Step Replay α) (r : Replay) :
    x.apply r = ((x.apply r).1, (x.apply r).2) := rfl

namespace Simulation

/-- An advance from related states, as the cursor and the replay take it. -/
theorem step_apply (hR : Simulation R) (a : Advance) {c : σ} {r : Replay} (h : R c r) :
    ∃ b c' r', a.step.apply r = (.ok b, r') ∧ a.step.apply c = (.ok b, c') ∧ R c' r' := by
  obtain ⟨o, c', r', hc, hr, h'⟩ := (hR.step a).apply_eq h
  obtain ⟨b, hb⟩ := step_ok r a
  rw [hr] at hb
  subst hb
  exact ⟨b, c', r', hr, hc, h'⟩

/-- A move that advances gives the same reply from related states and leads to related
states. -/
theorem move_advance (hR : Simulation R) (a : Advance) :
    Step.Agree R (move a.move) (move a.move) := by
  intro c r h
  obtain ⟨b, c', r', hr, hc, hrel⟩ := hR.step_apply a h
  cases a with
  | field =>
    simp only [Advance.step, cursor_nextField] at hr hc
    simp only [Advance.move, move, Step.apply_bind, hr, hc, cursor_nextField]
    cases b
    · exact ⟨rfl, hrel⟩
    · have hf := hR.field _ _ hrel (by simpa [hr] using fieldBlock?_of_nextField r (by rw [hr]))
      simp [hf, hrel]
  | term =>
    simp only [Advance.step, cursor_nextTerm] at hr hc
    simp only [Advance.move, move, Step.apply_bind, hr, hc, cursor_nextTerm]
    cases b
    · exact ⟨rfl, hrel⟩
    · obtain ⟨ht, hd⟩ := hR.term _ _ hrel (by simpa [hr] using termBlock?_of_nextTerm r (by rw [hr]))
      simp [ht, hd, hrel]
  | group =>
    simp only [Advance.step, cursor_nextGroup] at hr hc
    simp only [Advance.move, move, Step.apply_bind, hr, hc, cursor_nextGroup]
    cases b
    · exact ⟨rfl, hrel⟩
    · obtain ⟨hg, hs⟩ := hR.group _ _ hrel (by simpa [hr] using groupRow?_of_nextGroup r (by rw [hr]))
      simp [hg, hs, hrel]

/-- Any sequence of advances gets the same replies from related states. -/
theorem replies_agree (hR : Simulation R) (as : List Advance) :
    Step.Agree R (replies as) (replies as) := by
  induction as with
  | nil => exact Step.Agree.pure' []
  | cons a as ih =>
    rw [replies_cons, replies_cons]
    exact Step.Agree.bind' (hR.move_advance a) fun _ =>
      Step.Agree.bind' ih fun _ => Step.Agree.pure' _

/-- Reading the groups of a term gives the same rows from related states. -/
theorem collectGroups_agree (hR : Simulation R) (fuel : Nat) :
    Step.Agree R (collectGroups fuel) (collectGroups fuel) := by
  induction fuel with
  | zero => exact Step.Agree.pure' []
  | succ fuel ih =>
    intro c r h
    obtain ⟨b, c', r', hr, hc, hrel⟩ := hR.step_apply .group h
    simp only [Advance.step, cursor_nextGroup] at hr hc
    simp only [collectGroups, Step.apply_bind, hc, hr, cursor_nextGroup]
    cases b
    · exact ⟨rfl, hrel⟩
    · obtain ⟨o, c'', r'', hc', hr', hrel'⟩ := ih.apply_eq hrel
      obtain ⟨hg, hs⟩ := hR.group c' r' hrel
        (by simpa [hr] using groupRow?_of_nextGroup r (by rw [hr]))
      simp only [if_true, Step.apply_bind, Step.apply_get, hc', hr']
      cases o with
      | error e => exact ⟨rfl, hrel'⟩
      | ok gs => exact ⟨by simp only [Step.apply_pure, hg, hs], hrel'⟩

/-- Reading the terms of a field gives the same terms from related states. -/
theorem collectTerms_agree (hR : Simulation R) (fuel n : Nat) :
    Step.Agree R (collectTerms fuel n) (collectTerms fuel n) := by
  induction n with
  | zero => exact Step.Agree.pure' []
  | succ n ih =>
    intro c r h
    obtain ⟨b, c', r', hr, hc, hrel⟩ := hR.step_apply .term h
    simp only [Advance.step, cursor_nextTerm] at hr hc
    simp only [collectTerms, Step.apply_bind, hc, hr, cursor_nextTerm]
    cases b
    · exact ⟨rfl, hrel⟩
    · obtain ⟨ht, hd⟩ := hR.term c' r' hrel
        (by simpa [hr] using termBlock?_of_nextTerm r (by rw [hr]))
      obtain ⟨o, c'', r'', hc', hr', hrel'⟩ := (hR.collectGroups_agree fuel).apply_eq hrel
      simp only [if_true, Step.apply_bind, Step.apply_get, hc', hr']
      cases o with
      | error e => exact ⟨rfl, hrel'⟩
      | ok gs =>
        obtain ⟨o', c₃, r₃, hc₃, hr₃, hrel₃⟩ := ih.apply_eq hrel'
        simp only [hc₃, hr₃]
        cases o' with
        | error e => exact ⟨rfl, hrel₃⟩
        | ok ts => exact ⟨by simp only [Step.apply_pure, ht, hd], hrel₃⟩

/-- Reading the fields of a stream gives the same fields from related states. -/
theorem collectFields_agree (hR : Simulation R) (fuel n : Nat) :
    Step.Agree R (collectFields fuel n) (collectFields fuel n) := by
  induction n with
  | zero => exact Step.Agree.pure' []
  | succ n ih =>
    intro c r h
    obtain ⟨b, c', r', hr, hc, hrel⟩ := hR.step_apply .field h
    simp only [Advance.step, cursor_nextField] at hr hc
    simp only [collectFields, Step.apply_bind, hc, hr, cursor_nextField]
    cases b
    · exact ⟨rfl, hrel⟩
    · obtain ⟨o, c'', r'', hc', hr', hrel'⟩ := (hR.collectTerms_agree fuel fuel).apply_eq hrel
      -- reading the terms leaves the replay on the field it moved to
      have hfield : r''.fieldBlock?.isSome := by
        have hkeep := collectTerms_preserves fuel fuel r'
        rw [hr'] at hkeep
        rw [fieldBlock?_of_fieldSpot hkeep]
        simpa [hr] using fieldBlock?_of_nextField r (by rw [hr])
      have hf := hR.field c'' r'' hrel' hfield
      simp only [if_true, Step.apply_bind, hc', hr']
      cases o with
      | error e => exact ⟨rfl, hrel'⟩
      | ok ts =>
        simp only [Step.apply_get]
        obtain ⟨o', c₃, r₃, hc₃, hr₃, hrel₃⟩ := ih.apply_eq hrel'
        simp only [hc₃, hr₃]
        cases o' with
        | error e => exact ⟨rfl, hrel₃⟩
        | ok fs => exact ⟨by simp only [Step.apply_pure, hf], hrel₃⟩

end Simulation

/-! ### Simulations through views -/

/-- A cursor that moves as the views of a replay do. From a state related to a view, each
advance answers as a replay with that view would and leads to a state related to the view the
replay moves to; and the cursor shows the field, term and group of the view it is related to.
Terms are asked for only on a field, as a replay has terms left only there. -/
structure ViewSim (S : σ → View → Prop) : Prop where
  nextField_cons : ∀ {c w f fs}, S c w → w.fields = f :: fs →
    ∃ c', Cursor.nextField.apply c = (.ok true, c') ∧ S c' ⟨some f, none, none, [], f.terms, fs⟩
  nextField_nil : ∀ {c w}, S c w → w.fields = [] →
    ∃ c', Cursor.nextField.apply c = (.ok false, c') ∧ S c' ⟨none, none, none, [], [], []⟩
  nextTerm_cons : ∀ {c w f t ts}, S c w → w.field? = some f → w.terms = t :: ts →
    ∃ c', Cursor.nextTerm.apply c = (.ok true, c') ∧
      S c' { w with term? := some t, group? := none, groups := t.groups, terms := ts }
  nextTerm_nil : ∀ {c w}, S c w → w.terms = [] →
    ∃ c', Cursor.nextTerm.apply c = (.ok false, c') ∧
      S c' { w with term? := none, group? := none, groups := [], terms := [] }
  nextGroup_cons : ∀ {c w g gs}, S c w → w.groups = g :: gs →
    ∃ c', Cursor.nextGroup.apply c = (.ok true, c') ∧ S c' { w with group? := some g, groups := gs }
  nextGroup_nil : ∀ {c w}, S c w → w.groups = [] →
    ∃ c', Cursor.nextGroup.apply c = (.ok false, c') ∧ S c' { w with group? := none, groups := [] }
  field : ∀ {c w f}, S c w → w.field? = some f → Cursor.field c = f.field
  term : ∀ {c w t}, S c w → w.term? = some t → Cursor.term c = t.term ∧ Cursor.docFreq c = t.docFreq
  group : ∀ {c w g}, S c w → w.group? = some g → Cursor.group c = g.group ∧ Cursor.stats c = g.stats

variable {S : σ → View → Prop}

omit [Cursor σ] in
private theorem agree_of_apply {x : Step σ Bool} {y : Step Replay Bool} {c c' : σ} {r r' : Replay}
    {o : Except Error Bool} (hc : x.apply c = (o, c')) (hr : y.apply r = (o, r')) (h : S c' r'.view) :
    (x.apply c).1 = (y.apply r).1 ∧ S (x.apply c).2 (y.apply r).2.view := by
  rw [hc, hr]
  exact ⟨rfl, h⟩

/-- A cursor that moves as the views of a replay do moves as the replay. -/
theorem ViewSim.simulation (h : ViewSim S) : Simulation fun c (r : Replay) => S c r.view where
  step a c r hc := by
    cases a with
    | field =>
      cases hfs : r.view.fields with
      | nil =>
        obtain ⟨r', hr, hv⟩ := r.nextField_view_nil hfs
        obtain ⟨c', hc', hs⟩ := h.nextField_nil hc hfs
        exact agree_of_apply hc' hr (hv ▸ hs)
      | cons f fs =>
        obtain ⟨r', hr, hv⟩ := r.nextField_view_cons hfs
        obtain ⟨c', hc', hs⟩ := h.nextField_cons hc hfs
        exact agree_of_apply hc' hr (hv ▸ hs)
    | term =>
      cases hts : r.view.terms with
      | nil =>
        obtain ⟨r', hr, hv⟩ := r.nextTerm_view_nil hts
        obtain ⟨c', hc', hs⟩ := h.nextTerm_nil hc hts
        exact agree_of_apply hc' hr (hv ▸ hs)
      | cons t ts =>
        obtain ⟨f, hf⟩ := r.field?_of_terms hts
        obtain ⟨r', hr, hv⟩ := r.nextTerm_view_cons hts
        obtain ⟨c', hc', hs⟩ := h.nextTerm_cons hc hf hts
        exact agree_of_apply hc' hr (hv ▸ hs)
    | group =>
      cases hgs : r.view.groups with
      | nil =>
        obtain ⟨r', hr, hv⟩ := r.nextGroup_view_nil hgs
        obtain ⟨c', hc', hs⟩ := h.nextGroup_nil hc hgs
        exact agree_of_apply hc' hr (hv ▸ hs)
      | cons g gs =>
        obtain ⟨r', hr, hv⟩ := r.nextGroup_view_cons hgs
        obtain ⟨c', hc', hs⟩ := h.nextGroup_cons hc hgs
        exact agree_of_apply hc' hr (hv ▸ hs)
  field c r hc hf := by
    obtain ⟨f, hf⟩ := Option.isSome_iff_exists.mp hf
    rw [h.field hc hf]
    simp [hf]
  term c r hc ht := by
    obtain ⟨t, ht⟩ := Option.isSome_iff_exists.mp ht
    rw [(h.term hc ht).1, (h.term hc ht).2]
    simp [ht]
  group c r hc hg := by
    obtain ⟨g, hg⟩ := Option.isSome_iff_exists.mp hg
    rw [(h.group hc hg).1, (h.group hc hg).2]
    simp [hg]

/-- A replay moves as its own views. -/
theorem viewSim_self : ViewSim fun (r : Replay) w => r.view = w where
  nextField_cons hr hw := by
    subst hr
    obtain ⟨r', h, hv⟩ := nextField_view_cons _ hw
    exact ⟨r', h, hv⟩
  nextField_nil hr hw := by
    subst hr
    obtain ⟨r', h, hv⟩ := nextField_view_nil _ hw
    exact ⟨r', h, hv⟩
  nextTerm_cons hr _ hw := by
    subst hr
    obtain ⟨r', h, hv⟩ := nextTerm_view_cons _ hw
    exact ⟨r', h, hv⟩
  nextTerm_nil hr hw := by
    subst hr
    obtain ⟨r', h, hv⟩ := nextTerm_view_nil _ hw
    exact ⟨r', h, hv⟩
  nextGroup_cons hr hw := by
    subst hr
    obtain ⟨r', h, hv⟩ := nextGroup_view_cons _ hw
    exact ⟨r', h, hv⟩
  nextGroup_nil hr hw := by
    subst hr
    obtain ⟨r', h, hv⟩ := nextGroup_view_nil _ hw
    exact ⟨r', h, hv⟩
  field hr hf := by
    subst hr
    simp [view] at hf
    simp [hf]
  term hr ht := by
    subst hr
    simp [view] at ht
    simp [ht]
  group hr hg := by
    subst hr
    simp [view] at hg
    simp [hg]

end Replay

end GroupStats
