import GroupStats.Stream.Replay
import GroupStats.Stream.Walk
import GroupStats.Proofs.Step

/-!
# Replaying a stream

A `Replay` is the reference walk of a stream held as a value. This module gives its three
advances as equations and shows that reading a replay from its start with enough fuel gives
back the whole stream, fields without terms and terms without groups included.
-/

namespace GroupStats

namespace Replay

variable (r : Replay)

theorem nextField_apply : nextField.apply r =
    if r.blocks.length ≤ r.fieldPos then (.ok false, { r with fieldPos := r.blocks.length + 1 })
    else (.ok true, { r with fieldPos := r.fieldPos + 1, termPos := 0, groupPos := 0 }) := by
  by_cases h : r.blocks.length ≤ r.fieldPos <;> simp [nextField, h]

theorem nextTerm_apply : nextTerm.apply r =
    match r.fieldBlock? with
    | none => (.ok false, r)
    | some f =>
      if f.terms.length ≤ r.termPos then (.ok false, { r with termPos := f.terms.length + 1 })
      else (.ok true, { r with termPos := r.termPos + 1, groupPos := 0 }) := by
  cases h : r.fieldBlock? with
  | none => simp [nextTerm, h]
  | some f => by_cases hf : f.terms.length ≤ r.termPos <;> simp [nextTerm, h, hf]

theorem nextGroup_apply : nextGroup.apply r =
    match r.termBlock? with
    | none => (.ok false, r)
    | some t =>
      if t.groups.length ≤ r.groupPos then (.ok false, { r with groupPos := t.groups.length + 1 })
      else (.ok true, { r with groupPos := r.groupPos + 1 }) := by
  cases h : r.termBlock? with
  | none => simp [nextGroup, h]
  | some t => by_cases ht : t.groups.length ≤ r.groupPos <;> simp [nextGroup, h, ht]

/-! ### Views after moving -/

@[simp] theorem fieldBlock?_setGroupPos (k : Nat) :
    { r with groupPos := k }.fieldBlock? = r.fieldBlock? := rfl

@[simp] theorem termBlock?_setGroupPos (k : Nat) :
    { r with groupPos := k }.termBlock? = r.termBlock? := rfl

@[simp] theorem fieldBlock?_setTermPos (j k : Nat) :
    { r with termPos := j, groupPos := k }.fieldBlock? = r.fieldBlock? := rfl

theorem termBlock?_setTermPos {f : FieldBlock} (hf : r.fieldBlock? = some f) (j k : Nat) :
    { r with termPos := j + 1, groupPos := k }.termBlock? = f.terms[j]? := by
  simp [termBlock?, hf]

theorem groupRow?_setGroupPos {t : TermBlock} (ht : r.termBlock? = some t) (k : Nat) :
    { r with groupPos := k + 1 }.groupRow? = t.groups[k]? := by
  simp [groupRow?, ht]

theorem fieldBlock?_setFieldPos (i : Nat) :
    { r with fieldPos := i + 1, termPos := 0, groupPos := 0 }.fieldBlock? = r.blocks[i]? := by
  simp [fieldBlock?]

/-! ### What a replay shows and has left -/

/-- What a replay shows and what it has left: the field, term and group it stands on, and the
groups of the term, the terms of the field and the fields of the stream after them. -/
structure View where
  field? : Option FieldBlock
  term? : Option TermBlock
  group? : Option GroupRow
  groups : List GroupRow
  terms : List TermBlock
  fields : Ftgs

/-- The view of a replay. -/
def view : View where
  field? := r.fieldBlock?
  term? := r.termBlock?
  group? := r.groupRow?
  groups := (r.termBlock?.map fun t => t.groups.drop r.groupPos).getD []
  terms := (r.fieldBlock?.map fun f => f.terms.drop r.termPos).getD []
  fields := r.blocks.drop r.fieldPos

theorem drop_eq_cons {α : Type} {xs ys : List α} {x : α} {n : Nat} (h : xs.drop n = x :: ys) :
    ∃ hn : n < xs.length, xs[n] = x ∧ xs.drop (n + 1) = ys := by
  have hn : n < xs.length := by
    rcases Nat.lt_or_ge n xs.length with hn | hle
    · exact hn
    · rw [List.drop_eq_nil_of_le hle] at h
      cases h
  rw [List.drop_eq_getElem_cons hn, List.cons.injEq] at h
  exact ⟨hn, h⟩

/-- Moving to the next group shows it, when the term has one left. -/
theorem nextGroup_view_cons {g : GroupRow} {gs : List GroupRow} (h : r.view.groups = g :: gs) :
    ∃ r', nextGroup.apply r = (.ok true, r') ∧
      r'.view = { r.view with group? := some g, groups := gs } := by
  cases ht : r.termBlock? with
  | none => simp [view, ht] at h
  | some t =>
    obtain ⟨hn, hg, hgs⟩ := drop_eq_cons (by simpa [view, ht] using h)
    refine ⟨{ r with groupPos := r.groupPos + 1 }, by simp [nextGroup_apply, ht, Nat.not_le.mpr hn], ?_⟩
    simp [view, groupRow?_setGroupPos _ ht, ht, List.getElem?_eq_getElem hn, hg, hgs]

/-- Past the last group of a term, or off any term, moving to a group answers no. -/
theorem nextGroup_view_nil (h : r.view.groups = []) :
    ∃ r', nextGroup.apply r = (.ok false, r') ∧
      r'.view = { r.view with group? := none, groups := [] } := by
  cases ht : r.termBlock? with
  | none =>
    refine ⟨r, by simp [nextGroup_apply, ht], ?_⟩
    simp [view, groupRow?, ht]
  | some t =>
    have hend : t.groups.length ≤ r.groupPos := by simpa [view, ht] using h
    refine ⟨{ r with groupPos := t.groups.length + 1 }, by simp [nextGroup_apply, ht, hend], ?_⟩
    simp [view, groupRow?_setGroupPos _ ht, ht, List.drop_eq_nil_of_le hend]

/-- Moving to the next term shows it with all its groups left, when the field has one left. -/
theorem nextTerm_view_cons {t : TermBlock} {ts : List TermBlock} (h : r.view.terms = t :: ts) :
    ∃ r', nextTerm.apply r = (.ok true, r') ∧
      r'.view = { r.view with term? := some t, group? := none, groups := t.groups, terms := ts } := by
  cases hf : r.fieldBlock? with
  | none => simp [view, hf] at h
  | some f =>
    obtain ⟨hn, ht, hts⟩ := drop_eq_cons (by simpa [view, hf] using h)
    have hterm := termBlock?_setTermPos r hf r.termPos 0
    rw [List.getElem?_eq_getElem hn, ht] at hterm
    refine ⟨{ r with termPos := r.termPos + 1, groupPos := 0 },
      by simp [nextTerm_apply, hf, Nat.not_le.mpr hn], ?_⟩
    simp [view, hterm, groupRow?, hf, hts]

/-- Past the last term of a field, or off any field, moving to a term answers no. -/
theorem nextTerm_view_nil (h : r.view.terms = []) :
    ∃ r', nextTerm.apply r = (.ok false, r') ∧
      r'.view = { r.view with term? := none, group? := none, groups := [], terms := [] } := by
  cases hf : r.fieldBlock? with
  | none =>
    refine ⟨r, by simp [nextTerm_apply, hf], ?_⟩
    simp [view, groupRow?, termBlock?, hf]
  | some f =>
    have hend : f.terms.length ≤ r.termPos := by simpa [view, hf] using h
    refine ⟨{ r with termPos := f.terms.length + 1 }, by simp [nextTerm_apply, hf, hend], ?_⟩
    simp [view, groupRow?, termBlock?, hf, List.drop_eq_nil_of_le hend]

/-- Moving to the next field shows it with all its terms left, when the stream has one left. -/
theorem nextField_view_cons {f : FieldBlock} {fs : Ftgs} (h : r.view.fields = f :: fs) :
    ∃ r', nextField.apply r = (.ok true, r') ∧
      r'.view = ⟨some f, none, none, [], f.terms, fs⟩ := by
  obtain ⟨hn, hf, hfs⟩ := drop_eq_cons (show r.blocks.drop r.fieldPos = f :: fs from h)
  have hfield := fieldBlock?_setFieldPos r r.fieldPos
  rw [List.getElem?_eq_getElem hn, hf] at hfield
  refine ⟨{ r with fieldPos := r.fieldPos + 1, termPos := 0, groupPos := 0 },
    by simp [nextField_apply, Nat.not_le.mpr hn], ?_⟩
  simp [view, hfield, groupRow?, termBlock?, hfs]

/-- Past the last field, moving to a field answers no and shows nothing. -/
theorem nextField_view_nil (h : r.view.fields = []) :
    ∃ r', nextField.apply r = (.ok false, r') ∧ r'.view = ⟨none, none, none, [], [], []⟩ := by
  have hend : r.blocks.length ≤ r.fieldPos := List.drop_eq_nil_iff.mp h
  refine ⟨{ r with fieldPos := r.blocks.length + 1 }, by simp [nextField_apply, hend], ?_⟩
  simp [view, groupRow?, termBlock?, fieldBlock?]

/-- Terms are left only on a field. -/
theorem field?_of_terms {t : TermBlock} {ts : List TermBlock} (h : r.view.terms = t :: ts) :
    ∃ f, r.view.field? = some f := by
  cases hf : r.fieldBlock? with
  | none => simp [view, hf] at h
  | some f => exact ⟨f, hf⟩

/-- A replay at its start shows nothing and has the whole stream left. -/
@[simp] theorem view_start (v : Ftgs) (numStats : Nat) (numGroups : UInt32) :
    ({ blocks := v, numStats, numGroups } : Replay).view = ⟨none, none, none, [], [], v⟩ := by
  simp [view, groupRow?, termBlock?, fieldBlock?]

/-! ### The cursor of a replay -/

@[simp] theorem cursor_nextField : (Cursor.nextField : Step Replay Bool) = nextField := rfl
@[simp] theorem cursor_nextTerm : (Cursor.nextTerm : Step Replay Bool) = nextTerm := rfl
@[simp] theorem cursor_nextGroup : (Cursor.nextGroup : Step Replay Bool) = nextGroup := rfl
@[simp] theorem cursor_field : Cursor.field r = (r.fieldBlock?.map (·.field)).getD default := rfl
@[simp] theorem cursor_term : Cursor.term r = (r.termBlock?.map (·.term)).getD (.int 0) := rfl
@[simp] theorem cursor_docFreq : Cursor.docFreq r = (r.termBlock?.map (·.docFreq)).getD 0 := rfl
@[simp] theorem cursor_group : Cursor.group r = (r.groupRow?.map (·.group)).getD 0 := rfl
@[simp] theorem cursor_stats : Cursor.stats r = (r.groupRow?.map (·.stats)).getD [] := rfl
@[simp] theorem cursor_budget : Cursor.budget r = r.blocks.size := rfl

/-! ### Reading a replay back -/

/-- Reading the groups of the current term from position `k` gives the groups from there on. -/
theorem collectGroups_apply {t : TermBlock} (ht : r.termBlock? = some t) :
    ∀ (k fuel : Nat), r.groupPos = k → t.groups.length - k < fuel →
    (Cursor.collectGroups fuel).apply r =
      (.ok (t.groups.drop k), { r with groupPos := t.groups.length + 1 }) := by
  intro k fuel
  induction fuel generalizing r k with
  | zero => intro _ h; omega
  | succ fuel ih =>
    intro hk hfuel
    by_cases hend : t.groups.length ≤ k
    · simp [Cursor.collectGroups, nextGroup_apply, ht, hk, hend, List.drop_eq_nil_of_le hend]
    · have hlt : k < t.groups.length := Nat.lt_of_not_le hend
      have hnext := ih { r with groupPos := k + 1 } (by simpa using ht) (k + 1) rfl (by omega)
      have hrow : { r with groupPos := k + 1 }.groupRow? = some t.groups[k] := by
        rw [groupRow?_setGroupPos _ ht, List.getElem?_eq_getElem hlt]
      simp only [Cursor.collectGroups, cursor_nextGroup, Step.apply_bind, nextGroup_apply, ht,
        hk, hend, if_false, if_true, Step.apply_get, hnext, Step.apply_pure, cursor_group,
        cursor_stats, hrow, Option.map_some, Option.getD_some, List.drop_eq_getElem_cons hlt]

/-- Reading the terms of the current field from position `j` gives the terms from there on,
each with all its groups, and leaves the replay past the field's last term. -/
theorem collectTerms_apply {f : FieldBlock} (hf : r.fieldBlock? = some f) {fuel : Nat}
    (hfuel : ∀ t ∈ f.terms, t.groups.length < fuel) :
    ∀ (j n : Nat), r.termPos = j → f.terms.length - j < n →
    ∃ r', (Cursor.collectTerms fuel n).apply r = (.ok (f.terms.drop j), r') ∧
      r'.blocks = r.blocks ∧ r'.fieldPos = r.fieldPos ∧ r'.termPos = f.terms.length + 1 := by
  intro j n
  induction n generalizing r j with
  | zero => intro _ h; omega
  | succ n ih =>
    intro hj hn
    by_cases hend : f.terms.length ≤ j
    · refine ⟨{ r with termPos := f.terms.length + 1 }, ?_, rfl, rfl, rfl⟩
      simp [Cursor.collectTerms, nextTerm_apply, hf, hj, hend, List.drop_eq_nil_of_le hend]
    · have hlt : j < f.terms.length := Nat.lt_of_not_le hend
      let t := f.terms[j]
      let r₁ : Replay := { r with termPos := j + 1, groupPos := 0 }
      have ht : r₁.termBlock? = some t := by
        rw [termBlock?_setTermPos _ hf, List.getElem?_eq_getElem hlt]
      have hgroups := collectGroups_apply r₁ ht 0 fuel rfl
        (by have := hfuel t (List.getElem_mem hlt); omega)
      obtain ⟨r', hr', hb, hfp, htp⟩ := ih { r₁ with groupPos := t.groups.length + 1 }
        (by simpa [r₁] using hf) (j + 1) rfl (by omega)
      refine ⟨r', ?_, hb, hfp, htp⟩
      simp only [Cursor.collectTerms, cursor_nextTerm, Step.apply_bind, nextTerm_apply, hf, hj,
        hend, if_false, if_true, Step.apply_get]
      simp only [r₁] at hgroups ht hr'
      rw [hgroups]
      dsimp only
      rw [hr']
      simp only [Step.apply_pure, cursor_term, cursor_docFreq, ht, Option.map_some,
        Option.getD_some, List.drop_zero, List.drop_eq_getElem_cons hlt, t]

theorem fieldBlock?_congr {r' : Replay} (hb : r'.blocks = r.blocks) (hf : r'.fieldPos = r.fieldPos) :
    r'.fieldBlock? = r.fieldBlock? := by
  simp [fieldBlock?, hb, hf]

/-- Reading the fields of a replay from position `i` with enough fuel gives the fields from
there on, whole, and leaves the replay past the last field. -/
theorem collectFields_apply {fuel : Nat}
    (hfuel : ∀ f ∈ r.blocks, f.terms.length < fuel ∧ ∀ t ∈ f.terms, t.groups.length < fuel) :
    ∀ (i n : Nat), r.fieldPos = i → r.blocks.length - i < n →
    ∃ r', (Cursor.collectFields fuel n).apply r = (.ok (r.blocks.drop i), r') ∧
      r'.blocks = r.blocks ∧ r'.fieldPos = r.blocks.length + 1 := by
  intro i n
  induction n generalizing r i with
  | zero => intro _ h; omega
  | succ n ih =>
    intro hi hn
    by_cases hend : r.blocks.length ≤ i
    · refine ⟨{ r with fieldPos := r.blocks.length + 1 }, ?_, rfl, rfl⟩
      simp [Cursor.collectFields, nextField_apply, hi, hend, List.drop_eq_nil_of_le hend]
    · have hlt : i < r.blocks.length := Nat.lt_of_not_le hend
      let f := r.blocks[i]
      let r₁ : Replay := { r with fieldPos := i + 1, termPos := 0, groupPos := 0 }
      have hf : r₁.fieldBlock? = some f := by
        rw [fieldBlock?_setFieldPos, List.getElem?_eq_getElem hlt]
      have hfuel_f := hfuel f (List.getElem_mem hlt)
      obtain ⟨r₂, h₂, hb₂, hfp₂, -⟩ := collectTerms_apply r₁ hf hfuel_f.2 0 fuel rfl (by omega)
      have hf₂ : r₂.fieldBlock? = some f := by rw [fieldBlock?_congr r₁ hb₂ hfp₂, hf]
      replace hb₂ : r₂.blocks = r.blocks := hb₂
      replace hfp₂ : r₂.fieldPos = i + 1 := hfp₂
      obtain ⟨r', hr', hb', hfp'⟩ := ih r₂ (by rw [hb₂]; exact hfuel) (i + 1) hfp₂
        (by rw [hb₂]; omega)
      refine ⟨r', ?_, hb'.trans hb₂, by rw [hfp', hb₂]⟩
      simp only [Cursor.collectFields, cursor_nextField, Step.apply_bind, nextField_apply, hi,
        hend, if_false, if_true]
      rw [h₂]
      dsimp only
      simp only [Step.apply_get]
      rw [hb₂] at hr'
      rw [hr']
      simp only [Step.apply_pure, cursor_field, hf₂, Option.map_some, Option.getD_some,
        List.drop_zero, List.drop_eq_getElem_cons hlt, f]

end Replay

namespace Ftgs

/-- No level of the stream has more than `k` entries: at most `k` fields, at most `k` terms in
a field and at most `k` groups in a term. -/
def Bounded (k : Nat) (v : Ftgs) : Prop :=
  v.length ≤ k ∧ ∀ f ∈ v, f.terms.length ≤ k ∧ ∀ t ∈ f.terms, t.groups.length ≤ k

theorem Bounded.mono {k k' : Nat} {v : Ftgs} (h : v.Bounded k) (hk : k ≤ k') : v.Bounded k' :=
  ⟨by have := h.1; omega, fun f hf => ⟨by have := (h.2 f hf).1; omega,
    fun t ht => by have := (h.2 f hf).2 t ht; omega⟩⟩

/-- The size of the terms of a field: one for each term and one for each of its groups. -/
theorem size_cons (f : FieldBlock) (v : Ftgs) :
    size (f :: v) = 1 + f.terms.foldr (fun t m => 1 + t.groups.length + m) 0 + size v := rfl

theorem terms_bounded (ts : List TermBlock) :
    ts.length ≤ ts.foldr (fun t m => 1 + t.groups.length + m) 0 ∧
      ∀ t ∈ ts, t.groups.length ≤ ts.foldr (fun t m => 1 + t.groups.length + m) 0 := by
  induction ts with
  | nil => simp
  | cons t ts ih =>
    refine ⟨by simp only [List.foldr_cons, List.length_cons]; omega, ?_⟩
    intro t' ht'
    simp only [List.mem_cons] at ht'
    rcases ht' with rfl | ht'
    · simp only [List.foldr_cons]; omega
    · have := ih.2 t' ht'
      simp only [List.foldr_cons]; omega

/-- A stream has no more fields, terms per field or groups per term than its size. -/
theorem bounded_size (v : Ftgs) : v.Bounded v.size := by
  induction v with
  | nil => simp [Bounded, size]
  | cons f v ih =>
    obtain ⟨hlen, hall⟩ := ih
    have hf := terms_bounded f.terms
    refine ⟨by rw [size_cons, List.length_cons]; omega, ?_⟩
    intro f' hf'
    simp only [List.mem_cons] at hf'
    rcases hf' with rfl | hf'
    · exact ⟨by rw [size_cons]; omega, fun t ht => by have := hf.2 t ht; rw [size_cons]; omega⟩
    · obtain ⟨h1, h2⟩ := hall f' hf'
      exact ⟨by rw [size_cons]; omega, fun t ht => by have := h2 t ht; rw [size_cons]; omega⟩

end Ftgs

namespace Replay

/-- Reading a replayed stream from its start with fuel above every count gives the stream. -/
theorem collectFields_start {v : Ftgs} {k fuel : Nat} (hv : v.Bounded k) (hk : k < fuel)
    (numStats : Nat) (numGroups : UInt32) :
    ∃ r', (Cursor.collectFields fuel fuel).apply
      ({ blocks := v, numStats, numGroups } : Replay) = (.ok v, r') := by
  have hfuel : ∀ f ∈ v, f.terms.length < fuel ∧ ∀ t ∈ f.terms, t.groups.length < fuel :=
    fun f hf => ⟨by have := (hv.2 f hf).1; omega,
      fun t ht => by have := (hv.2 f hf).2 t ht; omega⟩
  obtain ⟨r', h, -⟩ := collectFields_apply { blocks := v, numStats, numGroups } hfuel 0 fuel rfl
    (by have := hv.1; simp; omega)
  exact ⟨r', h⟩

/-- Reading a replay from its start gives back the stream it replays. -/
theorem collect_ofBlocks (v : Ftgs) (numStats : Nat) (atLeast : UInt32) :
    (Cursor.collect.apply (ofBlocks v numStats atLeast)).1 = .ok v := by
  obtain ⟨r', h⟩ := collectFields_start (Ftgs.bounded_size v) (Nat.lt_succ_self _) numStats
    (ofBlocks v numStats atLeast).numGroups
  simp only [Cursor.collect, Step.apply_bind, Step.apply_get, cursor_budget]
  exact congrArg Prod.fst h

end Replay

end GroupStats
