import GroupStats.Merge.Streams
import GroupStats.Proofs.Core.TermOrder

/-!
# Merged streams

What merging streams gives, as functions of the streams. Streams that visit the same fields
merge field by field. Within a field the terms merge head by head: the least head term is
next, every input whose head is that term contributes it, its document frequency is the
wrapping sum of theirs and its groups are the distinct groups they send, ascending, each with
its stats summed. The inputs' terms need not be sorted for this to be defined; the laws about
sorted inputs are in `Proofs/Merge/Laws`.

The least head is chosen by the term merge's own `least` on entries of a term and an input
index. That choice is a linear order on entries, so the least entry does not depend on the
order the entries come in.
-/

namespace GroupStats

namespace TermMerge

/-! ### The least entry -/

theorem entryLt_iff (a b : Term × Nat) :
    entryLt a b = true ↔ Term.compare a.1 b.1 = .lt ∨ (a.1 = b.1 ∧ a.2 < b.2) := by
  unfold entryLt
  cases h : Term.compare a.1 b.1
  · simp
  · simp [Term.compare_eq_iff.mp h]
  · simp only [reduceCtorEq, false_or, Bool.false_eq_true, false_iff, not_and]
    intro heq
    rw [heq, Term.compare_self] at h
    cases h

theorem entryLt_irrefl (a : Term × Nat) : entryLt a a = false := by
  simp [entryLt, Term.compare_self]

theorem entryLt_trans {a b c : Term × Nat} (h₁ : entryLt a b = true) (h₂ : entryLt b c = true) :
    entryLt a c = true := by
  rw [entryLt_iff] at *
  rcases h₁ with h₁ | ⟨h₁, h₁'⟩ <;> rcases h₂ with h₂ | ⟨h₂, h₂'⟩
  · exact .inl (Term.compare_lt_trans h₁ h₂)
  · exact .inl (h₂ ▸ h₁)
  · exact .inl (h₁ ▸ h₂)
  · exact .inr ⟨h₁.trans h₂, by omega⟩

theorem entryLt_trichotomy (a b : Term × Nat) :
    a = b ∨ entryLt a b = true ∨ entryLt b a = true := by
  rw [entryLt_iff, entryLt_iff]
  cases h : Term.compare a.1 b.1
  · exact .inr (.inl (.inl rfl))
  · have ht := Term.compare_eq_iff.mp h
    rcases Nat.lt_trichotomy a.2 b.2 with hi | hi | hi
    · exact .inr (.inl (.inr ⟨ht, hi⟩))
    · exact .inl (Prod.ext ht hi)
    · exact .inr (.inr (.inr ⟨ht.symm, hi⟩))
  · exact .inr (.inr (.inl (by rw [Term.compare_swap, h]; rfl)))

/-- The fold of `least` keeps an entry that no entry seen so far is below. -/
theorem foldl_least_spec (m : Term × Nat) (es : List (Term × Nat)) :
    es.foldl (fun m x => if entryLt x m then x else m) m ∈ m :: es ∧
      ∀ y ∈ m :: es, entryLt y (es.foldl (fun m x => if entryLt x m then x else m) m) = false := by
  induction es generalizing m with
  | nil => exact ⟨List.mem_singleton_self m, by simp [entryLt_irrefl]⟩
  | cons x xs ih =>
    rw [List.foldl_cons]
    by_cases hx : entryLt x m = true
    · rw [if_pos hx]
      obtain ⟨hmem, hmin⟩ := ih x
      generalize List.foldl (fun m x => if entryLt x m = true then x else m) x xs = r at hmem hmin ⊢
      refine ⟨List.mem_cons_of_mem _ hmem, ?_⟩
      intro y hy
      rcases List.mem_cons.mp hy with rfl | hy
      · -- `x` is below `y`, so anything `y` is below, `x` is below too
        cases hyr : entryLt y r
        · rfl
        · have hxr := hmin x (List.mem_cons_self ..)
          rw [entryLt_trans hx hyr] at hxr
          cases hxr
      · exact hmin y hy
    · rw [if_neg hx]
      obtain ⟨hmem, hmin⟩ := ih m
      generalize List.foldl (fun m x => if entryLt x m = true then x else m) m xs = r at hmem hmin ⊢
      refine ⟨?_, ?_⟩
      · rcases List.mem_cons.mp hmem with h | h
        · exact h ▸ List.mem_cons_self ..
        · exact List.mem_cons_of_mem _ (List.mem_cons_of_mem _ h)
      · intro y hy
        rcases List.mem_cons.mp hy with rfl | hy
        · exact hmin y (List.mem_cons_self ..)
        rcases List.mem_cons.mp hy with rfl | hy
        · -- `y` is not below `m`, and `m` is not below the kept entry
          cases hyr : entryLt y r
          · rfl
          · rcases entryLt_trichotomy y m with rfl | hym | hmy
            · rw [hmin y (List.mem_cons_self ..)] at hyr
              cases hyr
            · exact absurd hym hx
            · have hmr := hmin m (List.mem_cons_self ..)
              rw [entryLt_trans hmy hyr] at hmr
              cases hmr
        · exact hmin y (List.mem_cons_of_mem _ hy)

theorem least_mem {es : List (Term × Nat)} {e : Term × Nat} (h : least es = some e) : e ∈ es := by
  cases es with
  | nil => cases h
  | cons m es =>
    simp only [least, Option.some.injEq] at h
    exact h ▸ (foldl_least_spec m es).1

theorem least_min {es : List (Term × Nat)} {e : Term × Nat} (h : least es = some e) :
    ∀ y ∈ es, entryLt y e = false := by
  cases es with
  | nil => cases h
  | cons m es =>
    simp only [least, Option.some.injEq] at h
    exact h ▸ (foldl_least_spec m es).2

@[simp] theorem least_eq_none {es : List (Term × Nat)} : least es = none ↔ es = [] := by
  cases es <;> simp [least]

/-- The least entry does not depend on the order of the entries. -/
theorem least_perm {es es' : List (Term × Nat)} (h : es.Perm es') : least es = least es' := by
  cases he : least es with
  | none =>
    have hes : es = [] := least_eq_none.mp he
    subst hes
    rw [List.nil_perm.mp h]
    rfl
  | some e =>
    cases he' : least es' with
    | none =>
      have hes : es' = [] := least_eq_none.mp he'
      subst hes
      rw [List.perm_nil.mp h] at he
      cases he
    | some e' =>
      have hmem := h.subset (least_mem he)
      have hmem' := h.symm.subset (least_mem he')
      rcases entryLt_trichotomy e e' with rfl | hlt | hlt
      · rfl
      · exact absurd (least_min he' e hmem) (by rw [hlt]; decide)
      · exact absurd (least_min he e' hmem') (by rw [hlt]; decide)

/-- The term of the least entry is at or below the term of every entry. -/
theorem least_term_le {es : List (Term × Nat)} {e : Term × Nat} (h : least es = some e) :
    ∀ y ∈ es, Term.compare y.1 e.1 ≠ .lt := by
  intro y hy hlt
  have := least_min h y hy
  rw [(entryLt_iff y e).mpr (.inl hlt)] at this
  cases this

end TermMerge

namespace Merge

open TermMerge

/-! ### Groups -/

/-- The distinct ids of a list, each where it first occurs. -/
def distinct (gs : List GroupId) : List GroupId :=
  gs.foldl (fun acc g => if g ∈ acc then acc else acc ++ [g]) []

/-- The groups several inputs send for one term, each input's groups in order: every group
once, ascending, with the stats it gets from all of them summed. -/
def groups (n : Nat) (gss : List (List GroupRow)) : List GroupRow :=
  let rows := gss.flatten
  let totals := rows.foldl (fun t r => t.add r.group r.stats) ({} : Totals)
  ((distinct (rows.map (·.group))).mergeSort (· ≤ ·)).map fun g => ⟨g, totals.row g n⟩

/-- The merged term `t` of the blocks that contribute it. -/
def block (n : Nat) (t : Term) (hits : List TermBlock) : TermBlock :=
  ⟨t, hits.foldl (fun acc b => acc + b.docFreq) 0, groups n (hits.map (·.groups))⟩

@[simp] theorem block_term (n : Nat) (t : Term) (hits : List TermBlock) : (block n t hits).term = t :=
  rfl

/-! ### Terms -/

/-- The head term of each input that has one, with the input's index. -/
def heads (tss : List (List TermBlock)) : List (Term × Nat) :=
  tss.zipIdx.filterMap fun (ts, i) => ts.head?.map fun b => (b.term, i)

/-- The head blocks of the inputs whose head is the term `t`, in input order. -/
def hits (t : Term) (tss : List (List TermBlock)) : List TermBlock :=
  tss.filterMap fun ts => ts.head?.filter (·.term = t)

/-- An input after the term `t` is merged: its head is gone if it was `t`. -/
def dropHead (t : Term) : List TermBlock → List TermBlock
  | b :: bs => if b.term = t then bs else b :: bs
  | [] => []

theorem mem_heads {tss : List (List TermBlock)} {e : Term × Nat} :
    e ∈ heads tss ↔ ∃ b bs, tss[e.2]? = some (b :: bs) ∧ b.term = e.1 := by
  obtain ⟨t, i⟩ := e
  simp only [heads, List.mem_filterMap, Option.map_eq_some_iff, Prod.mk.injEq]
  constructor
  · rintro ⟨⟨ts, j⟩, hmem, b, hb, rfl, rfl⟩
    rw [List.mem_zipIdx_iff_getElem?] at hmem
    cases ts with
    | nil => cases hb
    | cons b' bs =>
      cases hb
      exact ⟨_, bs, hmem, rfl⟩
  · rintro ⟨b, bs, hi, rfl⟩
    exact ⟨(b :: bs, i), List.mem_zipIdx_iff_getElem?.mpr hi, b, rfl, rfl, rfl⟩

theorem length_dropHead_le (t : Term) (ts : List TermBlock) : (dropHead t ts).length ≤ ts.length := by
  cases ts with
  | nil => exact Nat.le_refl _
  | cons b bs =>
    simp only [dropHead]
    split <;> simp

theorem sum_dropHead_le (t : Term) :
    ∀ tss : List (List TermBlock),
      ((tss.map (dropHead t)).map List.length).sum ≤ (tss.map List.length).sum
  | [] => Nat.le_refl _
  | ts :: tss => by
    have := length_dropHead_le t ts
    have := sum_dropHead_le t tss
    simp only [List.map_cons, List.sum_cons]
    omega

theorem sum_dropHead_lt {t : Term} :
    ∀ {tss : List (List TermBlock)}, (∃ ts ∈ tss, ∃ b bs, ts = b :: bs ∧ b.term = t) →
      ((tss.map (dropHead t)).map List.length).sum < (tss.map List.length).sum
  | [], ⟨_, hmem, _⟩ => by cases hmem
  | ts :: tss, ⟨ts', hmem, b, bs, hts, hb⟩ => by
    simp only [List.map_cons, List.sum_cons]
    rcases List.mem_cons.mp hmem with rfl | hmem
    · subst hts
      have : (dropHead t (b :: bs)).length < (b :: bs).length := by simp [dropHead, hb]
      have := sum_dropHead_le t tss
      omega
    · have := sum_dropHead_lt ⟨ts', hmem, b, bs, hts, hb⟩
      have := length_dropHead_le t ts
      omega

theorem heads_least_drops {tss : List (List TermBlock)} {e : Term × Nat}
    (h : least (heads tss) = some e) : ∃ ts ∈ tss, ∃ b bs, ts = b :: bs ∧ b.term = e.1 := by
  obtain ⟨b, bs, hi, hb⟩ := mem_heads.mp (least_mem h)
  exact ⟨b :: bs, List.mem_of_getElem? hi, b, bs, rfl, hb⟩

/-- The merge of the terms of several inputs: the least head term with what every input
whose head it is gives, then the merge of what is left. -/
def terms (n : Nat) (tss : List (List TermBlock)) : List TermBlock :=
  match _h : least (heads tss) with
  | none => []
  | some e => block n e.1 (hits e.1 tss) :: terms n (tss.map (dropHead e.1))
termination_by (tss.map List.length).sum
decreasing_by simpa using sum_dropHead_lt (heads_least_drops _h)

theorem terms_of_least_none {n : Nat} {tss : List (List TermBlock)}
    (h : least (heads tss) = none) : terms n tss = [] := by
  rw [terms.eq_def]
  split
  · rfl
  · rename_i e he; rw [h] at he; cases he

theorem terms_of_least_some {n : Nat} {tss : List (List TermBlock)} {e : Term × Nat}
    (h : least (heads tss) = some e) :
    terms n tss = block n e.1 (hits e.1 tss) :: terms n (tss.map (dropHead e.1)) := by
  rw [terms.eq_def]
  split
  · rename_i he; rw [h] at he; cases he
  · rename_i e' he; rw [h] at he; cases he; rfl

/-! ### Fields -/

/-- Streams that visit the same fields in the same order. -/
def Aligned (vs : List Ftgs) : Prop := ∀ u ∈ vs, ∀ v ∈ vs, u.map (·.field) = v.map (·.field)

/-- The terms of a stream's next field; none when no field is left. -/
def firstTerms (v : Ftgs) : List TermBlock := (v.head?.map (·.terms)).getD []

/-- The merge of streams that visit the same fields: field by field, the field with the merge
of its terms in every stream. -/
def fields (n : Nat) (vs : List Ftgs) : Ftgs :=
  match _h : vs.head?.bind List.head? with
  | none => []
  | some f => ⟨f.field, terms n (vs.map firstTerms)⟩ :: fields n (vs.map List.tail)
termination_by (vs.head?.map List.length).getD 0
decreasing_by
  cases vs with
  | nil => cases _h
  | cons v vs =>
    cases v with
    | nil => cases _h
    | cons f' v => simp

theorem Aligned.tail {vs : List Ftgs} (h : Aligned vs) : Aligned (vs.map List.tail) := by
  intro u' hu' v' hv'
  obtain ⟨u, hu, rfl⟩ := List.mem_map.mp hu'
  obtain ⟨v, hv, rfl⟩ := List.mem_map.mp hv'
  rw [List.map_tail, List.map_tail, h u hu v hv]

/-- Aligned streams all have a next field or all have run out. -/
theorem Aligned.nil_of_nil {vs : List Ftgs} (h : Aligned vs) {u : Ftgs} (hu : u ∈ vs)
    (hnil : u = []) : ∀ v ∈ vs, v = [] := by
  intro v hv
  have := h u hu v hv
  rw [hnil, List.map_nil, eq_comm, List.map_eq_nil_iff] at this
  exact this

theorem fields_of_nil {n : Nat} {vs : List Ftgs} (h : ∀ v ∈ vs, v = []) : fields n vs = [] := by
  rw [fields.eq_def]
  split
  · rfl
  · rename_i f hf
    cases vs with
    | nil => cases hf
    | cons v vs => rw [h v (List.mem_cons_self ..)] at hf; cases hf

theorem fields_of_cons {n : Nat} {v : Ftgs} {vs : List Ftgs} {f : FieldBlock} {rest : Ftgs}
    (hv : v = f :: rest) :
    fields n (v :: vs) = ⟨f.field, terms n ((v :: vs).map firstTerms)⟩ ::
      fields n ((v :: vs).map List.tail) := by
  subst hv
  rw [fields.eq_def]
  rfl

theorem fields_of_head {n : Nat} {vs : List Ftgs} {f : FieldBlock} {rest : Ftgs}
    (h : vs.head? = some (f :: rest)) :
    fields n vs = ⟨f.field, terms n (vs.map firstTerms)⟩ :: fields n (vs.map List.tail) := by
  cases vs with
  | nil => cases h
  | cons v vs =>
    cases h
    exact fields_of_cons rfl

/-- Once the first stream has no field left, the merge has none. -/
theorem fields_nil_cons {n : Nat} (vs : List Ftgs) : fields n ([] :: vs) = [] := by
  rw [fields.eq_def]
  rfl

end Merge

end GroupStats
