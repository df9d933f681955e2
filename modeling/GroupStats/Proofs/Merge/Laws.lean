import GroupStats.Proofs.Merge.Spec
import GroupStats.Proofs.Group.Tally

/-!
# Laws of the merge

Two laws of merging streams whose terms strictly ascend within each field. Cutting the streams
down to the terms a predicate keeps commutes with merging them. And a stream whose terms are
dealt out among several streams by a function of the term merges back into itself when the
groups of each term strictly ascend: each term then comes from exactly one of the streams, and
summing its groups over that one contributor gives them back unchanged.

Both laws follow the merge one least head at a time (`terms_induction`). What makes them hold
is that in an ascending input every term is at or above the input's head, so no term that a
cut or a split lets through can come before the least head.
-/

namespace GroupStats

namespace Merge

open TermMerge

/-- Terms that strictly ascend. -/
def Ascending (ts : List TermBlock) : Prop :=
  ts.Pairwise fun a b => Term.compare a.term b.term = .lt

end Merge

namespace Ftgs

/-- The stream with only the terms that `keep` picks; every field stays, even when it is left
without terms. -/
def keepTerms (keep : Term → Bool) (v : Ftgs) : Ftgs :=
  v.map fun f => { f with terms := f.terms.filter fun b => keep b.term }

/-- In every field the terms strictly ascend, and in every term the groups do. -/
def Sorted (v : Ftgs) : Prop :=
  ∀ f ∈ v, Merge.Ascending f.terms ∧ ∀ t ∈ f.terms, t.groups.Pairwise fun a b => a.group < b.group

@[simp] theorem keepTerms_nil (keep : Term → Bool) : keepTerms keep [] = [] := rfl

@[simp] theorem keepTerms_cons (keep : Term → Bool) (f : FieldBlock) (v : Ftgs) :
    keepTerms keep (f :: v) =
      { f with terms := f.terms.filter fun b => keep b.term } :: keepTerms keep v := rfl

end Ftgs

namespace Merge

open TermMerge

variable {n : Nat}

/-! ### Choosing the least head -/

/-- An entry of a queue that no entry is below is the least one. -/
theorem least_eq_of_min {es : List (Term × Nat)} {e : Term × Nat} (he : e ∈ es)
    (hmin : ∀ y ∈ es, entryLt y e = false) : least es = some e := by
  cases hl : least es with
  | none => rw [least_eq_none.mp hl] at he; cases he
  | some e' =>
    have h₁ := least_min hl e he
    have h₂ := hmin e' (least_mem hl)
    rcases entryLt_trichotomy e e' with rfl | h | h
    · rfl
    · rw [h] at h₁; cases h₁
    · rw [h] at h₂; cases h₂

/-- Queues with the same entries have the same least entry, whatever their order. -/
theorem least_congr {es es' : List (Term × Nat)} (h : ∀ e, e ∈ es ↔ e ∈ es') :
    least es = least es' := by
  cases hl : least es with
  | none =>
    have hes : es = [] := least_eq_none.mp hl
    subst hes
    have : es' = [] := List.eq_nil_iff_forall_not_mem.mpr fun e he => by simpa using (h e).mpr he
    rw [this]
    rfl
  | some e =>
    exact (least_eq_of_min ((h e).mp (least_mem hl))
      fun y hy => least_min hl y ((h y).mpr hy)).symm

/-- An entry no lower than one that is not below `e` is not below `e` either. -/
theorem entryLt_false_of_le {a c : Term} {j : Nat} {e : Term × Nat} (ha : entryLt (a, j) e = false)
    (hac : Term.compare a c ≠ .gt) : entryLt (c, j) e = false := by
  cases hce : entryLt (c, j) e
  · rfl
  · exfalso
    rw [entryLt_iff] at hce
    have hlt : entryLt (a, j) e = true := by
      rw [entryLt_iff]
      cases hcmp : Term.compare a c
      · rcases hce with hce | ⟨hce, hj⟩
        · exact .inl (Term.compare_lt_trans hcmp hce)
        · exact .inl (hce ▸ hcmp)
      · rw [Term.compare_eq_iff.mp hcmp]
        exact hce
      · exact absurd hcmp hac
    rw [ha] at hlt
    cases hlt

/-- No input has a head exactly when every input is empty. -/
theorem heads_eq_nil_iff {tss : List (List TermBlock)} : heads tss = [] ↔ ∀ ts ∈ tss, ts = [] := by
  constructor
  · intro h ts hts
    cases ts with
    | nil => rfl
    | cons b bs =>
      obtain ⟨j, hj⟩ := List.mem_iff_getElem?.mp hts
      have hmem : (b.term, j) ∈ heads tss := mem_heads.mpr ⟨b, bs, hj, rfl⟩
      rw [h] at hmem
      cases hmem
  · intro h
    apply List.eq_nil_iff_forall_not_mem.mpr
    intro e he
    obtain ⟨b, bs, hi, -⟩ := mem_heads.mp he
    cases h _ (List.mem_of_getElem? hi)

/-- Every input's head term is at or above the least one. -/
theorem head_term_ge {tss : List (List TermBlock)} {e : Term × Nat} (h : least (heads tss) = some e)
    {b : TermBlock} {bs : List TermBlock} (hl : b :: bs ∈ tss) : Term.compare b.term e.1 ≠ .lt := by
  obtain ⟨j, hj⟩ := List.mem_iff_getElem?.mp hl
  exact least_term_le h (b.term, j) (mem_heads.mpr ⟨b, bs, hj, rfl⟩)

/-- Induction along the merge of terms: a property of the inputs holds when it holds once no
input has a term left, and when it holds of the inputs after their least head is merged. -/
@[elab_as_elim]
theorem terms_induction {motive : List (List TermBlock) → Prop}
    (none : ∀ tss, least (heads tss) = none → motive tss)
    (some : ∀ tss e, least (heads tss) = some e → motive (tss.map (dropHead e.1)) → motive tss)
    (tss : List (List TermBlock)) : motive tss :=
  match he : least (heads tss) with
  | .none => none tss he
  | .some e => some tss e he (terms_induction none some (tss.map (dropHead e.1)))
termination_by (tss.map List.length).sum
decreasing_by simpa using sum_dropHead_lt (heads_least_drops he)

/-! ### Ascending inputs -/

theorem Ascending.dropHead {ts : List TermBlock} (h : Ascending ts) (t : Term) :
    Ascending (dropHead t ts) := by
  cases ts with
  | nil => exact h
  | cons b bs =>
    simp only [Merge.dropHead]
    split
    · exact h.of_cons
    · exact h

theorem Ascending.filter {ts : List TermBlock} (h : Ascending ts) (p : TermBlock → Bool) :
    Ascending (ts.filter p) :=
  List.Pairwise.filter p h

/-- Every term of an ascending input is at or above its head. -/
theorem Ascending.head_le {b : TermBlock} {bs : List TermBlock} (h : Ascending (b :: bs))
    {c : TermBlock} (hc : c ∈ b :: bs) : Term.compare b.term c.term ≠ .gt := by
  rcases List.mem_cons.mp hc with rfl | hc
  · rw [Term.compare_self]; decide
  · rw [List.rel_of_pairwise_cons h hc]; decide

/-- Dropping a term no block has changes nothing. -/
theorem dropHead_of_ne {t : Term} {ts : List TermBlock} (h : ∀ c ∈ ts, c.term ≠ t) :
    dropHead t ts = ts := by
  cases ts with
  | nil => rfl
  | cons b bs => simp [Merge.dropHead, h b (List.mem_cons_self ..)]

theorem head?_filter_of_ne {t : Term} {ts : List TermBlock} (h : ∀ c ∈ ts, c.term ≠ t) :
    ts.head?.filter (·.term = t) = none := by
  cases ts with
  | nil => rfl
  | cons b bs => simp [h b (List.mem_cons_self ..)]

/-- In an ascending input whose head is above `t`, no term is `t`. -/
theorem Ascending.ne_of_head_gt {b : TermBlock} {bs : List TermBlock} (h : Ascending (b :: bs))
    {t : Term} (hb : Term.compare b.term t = .gt) : ∀ c ∈ b :: bs, c.term ≠ t := by
  intro c hc hct
  subst hct
  have := h.head_le hc
  exact this hb

/-! ### Cutting inputs down to some terms -/

section Keep

variable (keep : Term → Bool)

/-- Merging a term that is cut leaves the cut input as it was. -/
theorem filter_dropHead_of_cut {t : Term} (hk : keep t = false) (ts : List TermBlock) :
    (dropHead t ts).filter (fun b => keep b.term) = ts.filter fun b => keep b.term := by
  cases ts with
  | nil => rfl
  | cons b bs =>
    by_cases hb : b.term = t
    · simp [Merge.dropHead, hb, hk]
    · simp [Merge.dropHead, hb]

/-- For an ascending input whose head is at or above a kept term `t`, cutting the input first
changes neither whether `t` is its head nor what merging `t` leaves of it. -/
theorem cut_of_kept {t : Term} (hk : keep t = true) {ts : List TermBlock} (hasc : Ascending ts)
    (hge : ∀ b ∈ ts.head?, Term.compare b.term t ≠ .lt) :
    (ts.filter fun b => keep b.term).head?.filter (·.term = t) = ts.head?.filter (·.term = t) ∧
      dropHead t (ts.filter fun b => keep b.term) =
        (dropHead t ts).filter fun b => keep b.term := by
  cases ts with
  | nil => exact ⟨rfl, rfl⟩
  | cons b bs =>
    by_cases hb : b.term = t
    · subst hb
      simp [hk, Merge.dropHead]
    · -- the head is above `t`, so no term of the input, kept or not, is `t`
      have hgt : Term.compare b.term t = .gt := by
        cases h : Term.compare b.term t
        · exact absurd h (hge b rfl)
        · exact absurd (Term.compare_eq_iff.mp h) hb
        · rfl
      have hne := hasc.ne_of_head_gt hgt
      have hne' : ∀ c ∈ (b :: bs).filter (fun b => keep b.term), c.term ≠ t :=
        fun c hc => hne c ((List.mem_filter.mp hc).1)
      rw [head?_filter_of_ne hne, head?_filter_of_ne hne', dropHead_of_ne hne, dropHead_of_ne hne']
      exact ⟨rfl, rfl⟩

variable {keep}

/-- When the least head is kept, the cut inputs have it as their least head too. -/
theorem least_heads_cut {tss : List (List TermBlock)} (hasc : ∀ ts ∈ tss, Ascending ts)
    {e : Term × Nat} (h : least (heads tss) = some e) (hk : keep e.1 = true) :
    least (heads (tss.map (·.filter fun b => keep b.term))) = some e := by
  apply least_eq_of_min
  · obtain ⟨b, bs, hi, hb⟩ := mem_heads.mp (least_mem h)
    have hkb : keep b.term = true := hb ▸ hk
    exact mem_heads.mpr ⟨b, bs.filter fun b => keep b.term,
      by simp [List.getElem?_map, hi, hkb], hb⟩
  · -- a cut input's head is one of its terms, at or above its head, which is not below `e`
    rintro ⟨s, j⟩ hy
    obtain ⟨c, cs, hj, hc⟩ := mem_heads.mp hy
    dsimp only at hj hc
    subst hc
    rw [List.getElem?_map, Option.map_eq_some_iff] at hj
    obtain ⟨ts, hts, hcut⟩ := hj
    have hcmem : c ∈ ts := (List.mem_filter.mp (hcut ▸ List.mem_cons_self ..)).1
    cases ts with
    | nil => cases hcmem
    | cons b bs =>
      have hb := least_min h (b.term, j) (mem_heads.mpr ⟨b, bs, hts, rfl⟩)
      exact entryLt_false_of_le hb ((hasc _ (List.mem_of_getElem? hts)).head_le hcmem)

/-- Cutting the inputs commutes with merging them. -/
theorem filter_terms (tss : List (List TermBlock)) (hasc : ∀ ts ∈ tss, Ascending ts) :
    (terms n tss).filter (fun b => keep b.term) =
      terms n (tss.map (·.filter fun b => keep b.term)) := by
  induction tss using terms_induction with
  | none tss h =>
    have hnil := heads_eq_nil_iff.mp (least_eq_none.mp h)
    rw [terms_of_least_none h, terms_of_least_none (least_eq_none.mpr (heads_eq_nil_iff.mpr ?_))]
    · rfl
    · intro ts' hts'
      obtain ⟨ts, hts, rfl⟩ := List.mem_map.mp hts'
      rw [hnil ts hts]
      rfl
  | some tss e h ih =>
    have hasc' : ∀ ts ∈ tss.map (dropHead e.1), Ascending ts := by
      intro ts' hts'
      obtain ⟨ts, hts, rfl⟩ := List.mem_map.mp hts'
      exact (hasc ts hts).dropHead e.1
    rw [terms_of_least_some h, List.filter_cons, block_term, ih hasc', List.map_map]
    cases hk : keep e.1
    · -- a cut term leaves every cut input as it was
      rw [if_neg Bool.false_ne_true]
      congr 1
      exact List.map_congr_left fun ts _ => filter_dropHead_of_cut keep hk ts
    · -- a kept term is merged from the same inputs before and after the cut
      have hcut : ∀ ts ∈ tss, _ := fun ts hts =>
        cut_of_kept keep hk (hasc ts hts) fun b hb => by
          cases ts with
          | nil => cases hb
          | cons b' bs =>
            cases hb
            exact head_term_ge h hts
      rw [if_pos rfl, terms_of_least_some (least_heads_cut hasc h hk), List.map_map]
      congr 2
      · simp only [hits, List.filterMap_map]
        exact List.filterMap_congr fun ts hts => (hcut ts hts).1.symm
      · exact List.map_congr_left fun ts hts => (hcut ts hts).2.symm

end Keep

/-! ### Dealing terms out -/

theorem foldl_distinct {gs : List GroupId} (hgs : gs.Nodup) :
    ∀ acc : List GroupId, (∀ g ∈ gs, g ∉ acc) →
      gs.foldl (fun acc g => if g ∈ acc then acc else acc ++ [g]) acc = acc ++ gs := by
  induction gs with
  | nil => simp
  | cons g gs ih =>
    intro acc hacc
    rw [List.nodup_cons] at hgs
    rw [List.foldl_cons, if_neg (hacc g (List.mem_cons_self ..)), ih hgs.2, List.append_assoc,
      List.singleton_append]
    intro x hx hmem
    rcases List.mem_append.mp hmem with h | h
    · exact hacc x (List.mem_cons_of_mem _ hx) h
    · rw [List.mem_singleton.mp h] at hx
      exact hgs.1 hx

theorem distinct_of_nodup {gs : List GroupId} (h : gs.Nodup) : distinct gs = gs := by
  unfold distinct
  rw [foldl_distinct h [] (by simp), List.nil_append]

/-- The groups of one input whose groups strictly ascend are those groups. -/
theorem groups_single (gs : List GroupRow) (h : gs.Pairwise fun a b => a.group < b.group) :
    groups n [gs] = gs := by
  have hnd : (gs.map (·.group)).Nodup := List.pairwise_map.mpr (h.imp UInt32.ne_of_lt)
  have hle : (gs.map (·.group)).Pairwise fun a b => decide (a ≤ b) = true :=
    List.pairwise_map.mpr (h.imp fun hab => by simpa using UInt32.le_of_lt hab)
  simp only [groups, List.flatten_cons, List.flatten_nil, List.append_nil]
  rw [distinct_of_nodup hnd, List.mergeSort_of_pairwise hle, List.map_map]
  conv => rhs; rw [← List.map_id gs]
  apply List.map_congr_left
  intro r hr
  simp only [Function.comp_apply, id]
  rw [Totals.row_foldl_of_mem hnd hr, Totals.row_empty, zipWith_add_zeros]

/-- The merge of one block is the block, when its groups strictly ascend. -/
theorem block_single (b : TermBlock) (h : b.groups.Pairwise fun a b => a.group < b.group) :
    block n b.term [b] = b := by
  simp [block, groups_single b.groups h]

theorem filterMap_range_single {α : Type} (x : α) {j k : Nat} (hj : j < k) :
    (List.range k).filterMap (fun i => if j = i then some x else none) = [x] := by
  induction k with
  | zero => omega
  | succ k ih =>
    rw [List.range_succ, List.filterMap_append]
    rcases Nat.lt_or_ge j k with hjk | hjk
    · rw [ih hjk]
      simp [Nat.ne_of_lt hjk]
    · have hjk : j = k := by omega
      subst hjk
      rw [List.filterMap_eq_nil_iff.mpr fun i hi => by simp [Nat.ne_of_gt (List.mem_range.mp hi)]]
      simp

/-- Dealing the terms of an ascending list out to `k` inputs by a function of the term and
merging the inputs gives the list back, when the groups of every term strictly ascend. -/
theorem terms_split (p : Term → Nat) {k : Nat} :
    ∀ ts : List TermBlock, (∀ b ∈ ts, p b.term < k) → Ascending ts →
      (∀ b ∈ ts, b.groups.Pairwise fun a b => a.group < b.group) →
      terms n ((List.range k).map fun i => ts.filter fun b => p b.term = i) = ts
  | [], _, _, _ => by
    apply terms_of_least_none
    rw [least_eq_none]
    exact heads_eq_nil_iff.mpr (by simp)
  | b :: bs, hp, hasc, hg => by
    -- every other term is above `b`, so `b` alone is the least head
    have hne : ∀ c ∈ bs, c.term ≠ b.term := fun c hc hcb => by
      have := List.rel_of_pairwise_cons hasc hc
      rw [hcb, Term.compare_self] at this
      cases this
    have hb : p b.term < k := hp b (List.mem_cons_self ..)
    have hlane : ∀ i, ((b :: bs).filter fun c => p c.term = i) =
        if p b.term = i then b :: bs.filter (fun c => p c.term = i)
        else bs.filter fun c => p c.term = i := fun i => by
      by_cases hi : p b.term = i <;> simp [hi]
    have hleast : least (heads ((List.range k).map fun i => (b :: bs).filter fun c => p c.term = i)) =
        some (b.term, p b.term) := by
      apply least_eq_of_min
      · exact mem_heads.mpr ⟨b, bs.filter fun c => p c.term = p b.term,
          by simp [List.getElem?_range hb, hlane], rfl⟩
      · rintro ⟨s, j⟩ hy
        obtain ⟨c, cs, hj, hc⟩ := mem_heads.mp hy
        dsimp only at hj hc
        subst hc
        rw [List.getElem?_map, Option.map_eq_some_iff] at hj
        obtain ⟨i, hi, hcut⟩ := hj
        have hcmem : c ∈ (b :: bs).filter fun c => p c.term = i := hcut ▸ List.mem_cons_self ..
        obtain ⟨hcin, hpc⟩ := List.mem_filter.mp hcmem
        obtain ⟨hjk, hji⟩ := List.getElem?_eq_some_iff.mp hi
        rw [List.getElem_range] at hji
        subst hji
        rcases List.mem_cons.mp hcin with rfl | hcbs
        · have hpc : p c.term = j := by simpa using hpc
          rw [hpc]
          exact entryLt_irrefl _
        · have hgt : Term.compare c.term b.term = .gt := by
            rw [Term.compare_swap, List.rel_of_pairwise_cons hasc hcbs]
            rfl
          simp [entryLt, hgt]
    have hhits : hits b.term ((List.range k).map fun i => (b :: bs).filter fun c => p c.term = i) =
        [b] := by
      simp only [hits, List.filterMap_map]
      rw [← filterMap_range_single b hb]
      apply List.filterMap_congr
      intro i _
      simp only [Function.comp_apply, hlane]
      split
      · simp
      · exact head?_filter_of_ne fun c hc => hne c ((List.mem_filter.mp hc).1)
    have hdrop : ((List.range k).map fun i => (b :: bs).filter fun c => p c.term = i).map
        (dropHead b.term) = (List.range k).map fun i => bs.filter fun c => p c.term = i := by
      rw [List.map_map]
      apply List.map_congr_left
      intro i _
      simp only [Function.comp_apply, hlane]
      split
      · simp [Merge.dropHead]
      · exact dropHead_of_ne fun c hc => hne c ((List.mem_filter.mp hc).1)
    rw [terms_of_least_some hleast, hhits, hdrop, block_single b (hg b (List.mem_cons_self ..)),
      terms_split p bs (fun c hc => hp c (List.mem_cons_of_mem _ hc)) hasc.of_cons
        (fun c hc => hg c (List.mem_cons_of_mem _ hc))]

/-! ### Whole streams -/

theorem firstTerms_keepTerms (keep : Term → Bool) (u : Ftgs) :
    firstTerms (u.keepTerms keep) = (firstTerms u).filter fun b => keep b.term := by
  cases u <;> rfl

theorem tail_keepTerms (keep : Term → Bool) (u : Ftgs) :
    (u.keepTerms keep).tail = Ftgs.keepTerms keep u.tail := by
  cases u <;> rfl

/-- Cutting streams down to some terms commutes with merging them. -/
theorem keepTerms_fields (keep : Term → Bool) :
    ∀ vs : List Ftgs, (∀ v ∈ vs, ∀ f ∈ v, Ascending f.terms) →
      (fields n vs).keepTerms keep = fields n (vs.map (Ftgs.keepTerms keep))
  | [], _ => by rw [fields_of_nil (by simp), List.map_nil, fields_of_nil (by simp)]; rfl
  | v :: vs, hasc => by
    -- the merge goes field by field down the first stream
    induction v generalizing vs with
    | nil => rw [fields_nil_cons, List.map_cons, Ftgs.keepTerms_nil, fields_nil_cons]
    | cons f v ih =>
      have hasc' : ∀ u ∈ v :: vs.map List.tail, ∀ f ∈ u, Ascending f.terms := by
        intro u hu f' hf'
        rcases List.mem_cons.mp hu with rfl | hu
        · exact hasc _ (List.mem_cons_self ..) f' (List.mem_cons_of_mem _ hf')
        · obtain ⟨u', hu', rfl⟩ := List.mem_map.mp hu
          exact hasc u' (List.mem_cons_of_mem _ hu') f' (List.mem_of_mem_tail hf')
      have hfirst : ∀ ts ∈ ((f :: v) :: vs).map firstTerms, Ascending ts := by
        intro ts hts
        obtain ⟨u, hu, rfl⟩ := List.mem_map.mp hts
        cases u with
        | nil => exact List.Pairwise.nil
        | cons g u => exact hasc _ hu g (List.mem_cons_self ..)
      have hcut : (Ftgs.keepTerms keep (f :: v) :: vs.map (Ftgs.keepTerms keep)).map firstTerms =
          (((f :: v) :: vs).map firstTerms).map (·.filter fun b => keep b.term) := by
        rw [← List.map_cons, List.map_map, List.map_map]
        exact List.map_congr_left fun u _ => firstTerms_keepTerms keep u
      have htail : (Ftgs.keepTerms keep (f :: v) :: vs.map (Ftgs.keepTerms keep)).map List.tail =
          (v :: vs.map List.tail).map (Ftgs.keepTerms keep) := by
        rw [List.map_cons, List.map_cons, List.map_map, List.map_map]
        congr 1
        exact List.map_congr_left fun u _ => tail_keepTerms keep u
      rw [fields_of_cons rfl, List.map_cons (f := Ftgs.keepTerms keep),
        fields_of_cons (Ftgs.keepTerms_cons keep f v), hcut, htail, Ftgs.keepTerms_cons,
        filter_terms _ hfirst, ← ih _ hasc']
      rfl

/-- Dealing the terms of a sorted stream out to `k` streams by a function of the term, every
stream keeping every field, and merging the streams gives the stream back. -/
theorem fields_split (p : Term → Nat) {k : Nat} (hk : 0 < k) :
    ∀ v : Ftgs, (∀ f ∈ v, ∀ b ∈ f.terms, p b.term < k) → v.Sorted →
      fields n ((List.range k).map fun i => Ftgs.keepTerms (fun t => p t = i) v) = v
  | [], _, _ => fields_of_nil (by simp)
  | f :: v, hp, hv => by
    have hhead : ((List.range k).map fun i => Ftgs.keepTerms (fun t => p t = i) (f :: v)).head? =
        some ({ f with terms := f.terms.filter fun b => p b.term = 0 } ::
          Ftgs.keepTerms (fun t => p t = 0) v) := by
      obtain ⟨k, rfl⟩ : ∃ k', k = k' + 1 := ⟨k - 1, by omega⟩
      rw [List.range_succ_eq_map]
      rfl
    have hfirst : ((List.range k).map fun i => Ftgs.keepTerms (fun t => p t = i) (f :: v)).map
        firstTerms = (List.range k).map fun i => f.terms.filter fun b => p b.term = i := by
      rw [List.map_map]
      rfl
    have htail : ((List.range k).map fun i => Ftgs.keepTerms (fun t => p t = i) (f :: v)).map
        List.tail = (List.range k).map fun i => Ftgs.keepTerms (fun t => p t = i) v := by
      rw [List.map_map]
      rfl
    have hf := hv f (List.mem_cons_self ..)
    rw [fields_of_head hhead, hfirst, htail,
      terms_split p f.terms (hp f (List.mem_cons_self ..)) hf.1 hf.2,
      fields_split p hk v (fun f' hf' => hp f' (List.mem_cons_of_mem _ hf'))
        (fun f' hf' => hv f' (List.mem_cons_of_mem _ hf'))]

end Merge

end GroupStats
