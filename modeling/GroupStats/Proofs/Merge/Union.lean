import GroupStats.Proofs.Merge.Merger

/-!
# Merged terms as a union

Merging inputs whose terms strictly ascend gives every term of every input once, ascending,
each merged from the block of it that every input holding it has. `terms_eq_union` says so of
any list of terms that strictly ascends and holds exactly the inputs' terms: such a list is
unique, so the merge is the union of its inputs term by term.

The argument follows the merge one least head at a time (`terms_induction`). Every head of an
ascending input is at or above the least head `t`, so once `t` is merged only terms above `t`
are left, and where a later term is found in an input does not change.
-/

namespace GroupStats

namespace Term

theorem lt_irrefl (t : Term) : ¬ t < t := by
  show Term.compare t t ≠ .lt
  rw [compare_self]
  decide

theorem lt_asymm {a b : Term} (h : a < b) : ¬ b < a := by
  show Term.compare b a ≠ .lt
  rw [compare_swap, show Term.compare a b = .lt from h]
  decide

theorem ne_of_lt {a b : Term} (h : a < b) : a ≠ b := by
  rintro rfl
  exact lt_irrefl a h

/-- A term that is neither below nor equal to another is above it. -/
theorem lt_of_not_lt_of_ne {a b : Term} (h₁ : Term.compare a b ≠ .lt) (h₂ : a ≠ b) : b < a := by
  show Term.compare b a = .lt
  rw [compare_swap]
  cases h : Term.compare a b
  · exact absurd h h₁
  · exact absurd (compare_eq_iff.mp h) h₂
  · rfl

end Term

namespace Merge

open TermMerge

variable {n : Nat} {t u : Term} {ts : List TermBlock}

/-! ### One input, one merged term -/

/-- Merging `t` keeps every block whose term is not `t`. -/
theorem mem_dropHead_of_ne {c : TermBlock} (hc : c ∈ ts) (hct : c.term ≠ t) :
    c ∈ dropHead t ts := by
  cases ts with
  | nil => cases hc
  | cons b bs =>
    simp only [dropHead]
    split
    · rename_i hbt
      rcases List.mem_cons.mp hc with rfl | hc
      · exact absurd hbt hct
      · exact hc
    · exact hc

/-- Merging `t` changes where no other term is found. -/
theorem find?_dropHead_of_ne (hut : u ≠ t) (ts : List TermBlock) :
    (dropHead t ts).find? (·.term = u) = ts.find? (·.term = u) := by
  cases ts with
  | nil => rfl
  | cons b bs =>
    simp only [dropHead]
    split
    · rename_i hbt
      have hbu : ¬ b.term = u := fun hbu => hut (hbu.symm.trans hbt)
      simp [hbu]
    · rfl

/-- Once `t` is merged, an ascending input whose head is not below `t` has only terms above
`t` left. -/
theorem lt_of_mem_dropHead (hasc : Ascending ts)
    (hge : ∀ b ∈ ts.head?, Term.compare b.term t ≠ .lt) {c : TermBlock}
    (hc : c ∈ dropHead t ts) : t < c.term := by
  cases ts with
  | nil => cases hc
  | cons b bs =>
    simp only [dropHead] at hc
    split at hc
    · -- the head was `t`, and the rest lies above the head
      rename_i hbt
      exact hbt ▸ List.rel_of_pairwise_cons hasc hc
    · -- the head lies above `t`, and every block is at or above the head
      rename_i hbt
      have hgt : t < b.term := Term.lt_of_not_lt_of_ne (hge b rfl) hbt
      rcases List.mem_cons.mp hc with rfl | hc
      · exact hgt
      · exact Term.compare_lt_trans hgt (List.rel_of_pairwise_cons hasc hc)

/-- In an ascending input whose head is not below `t`, the block of `t` is the head if the
input has one at all. -/
theorem head?_filter_eq_find? (hasc : Ascending ts)
    (hge : ∀ b ∈ ts.head?, Term.compare b.term t ≠ .lt) :
    ts.head?.filter (·.term = t) = ts.find? (·.term = t) := by
  cases ts with
  | nil => rfl
  | cons b bs =>
    by_cases hbt : b.term = t
    · simp [hbt]
    · -- the head lies above `t`, so no block of the input is `t`
      have hgt : Term.compare b.term t = .gt := by
        rw [Term.compare_swap]
        simp [show Term.compare t b.term = .lt from Term.lt_of_not_lt_of_ne (hge b rfl) hbt]
      have hne := hasc.ne_of_head_gt hgt
      rw [head?_filter_of_ne hne, List.find?_eq_none.mpr fun c hc => by simpa using hne c hc]

/-! ### The whole merge -/

/-- The merge of ascending inputs ascends, holds exactly the terms of the inputs, and merges
each of its terms from the blocks of it the inputs hold, in input order. -/
theorem terms_union (tss : List (List TermBlock)) (hasc : ∀ ts ∈ tss, Ascending ts) :
    Ascending (terms n tss) ∧
      (∀ u, u ∈ (terms n tss).map (·.term) ↔ ∃ ts ∈ tss, ∃ b ∈ ts, b.term = u) ∧
      ∀ B ∈ terms n tss, B = block n B.term (tss.filterMap (·.find? (·.term = B.term))) := by
  induction tss using terms_induction with
  | none tss h =>
    have hnil := heads_eq_nil_iff.mp (least_eq_none.mp h)
    rw [terms_of_least_none h]
    refine ⟨List.Pairwise.nil, fun u => ?_, by simp⟩
    simp only [List.map_nil, List.not_mem_nil, false_iff, not_exists, not_and]
    intro ts hts b hb
    rw [hnil ts hts] at hb
    cases hb
  | some tss e h ih =>
    obtain ⟨t, j⟩ := e
    have hasc' : ∀ ts ∈ tss.map (dropHead t), Ascending ts := by
      intro ts' hts'
      obtain ⟨ts, hts, rfl⟩ := List.mem_map.mp hts'
      exact (hasc ts hts).dropHead t
    obtain ⟨ihasc, ihmem, ihblock⟩ := ih hasc'
    -- every head is at or above the least one
    have hge : ∀ ts ∈ tss, ∀ b ∈ ts.head?, Term.compare b.term t ≠ .lt := by
      intro ts hts b hb
      cases ts with
      | nil => cases hb
      | cons b' bs =>
        cases hb
        exact head_term_ge h hts
    -- so what is left to merge lies above `t`
    have habove : ∀ B ∈ terms n (tss.map (dropHead t)), t < B.term := by
      intro B hB
      obtain ⟨ts', hts', c, hc, hct⟩ := (ihmem B.term).mp (List.mem_map_of_mem hB)
      obtain ⟨ts, hts, rfl⟩ := List.mem_map.mp hts'
      exact hct ▸ lt_of_mem_dropHead (hasc ts hts) (hge ts hts) hc
    rw [terms_of_least_some h]
    refine ⟨List.pairwise_cons.mpr ⟨habove, ihasc⟩, fun u => ?_, fun B hB => ?_⟩
    · simp only [List.map_cons, List.mem_cons, block_term]
      rw [ihmem u]
      constructor
      · rintro (rfl | ⟨ts', hts', c, hc, rfl⟩)
        · obtain ⟨ts, hts, b, bs, rfl, hb⟩ := heads_least_drops h
          exact ⟨_, hts, b, List.mem_cons_self .., hb⟩
        · obtain ⟨ts, hts, rfl⟩ := List.mem_map.mp hts'
          exact ⟨ts, hts, c, mem_of_mem_dropHead hc, rfl⟩
      · rintro ⟨ts, hts, b, hb, rfl⟩
        by_cases hbt : b.term = t
        · exact .inl hbt
        · exact .inr ⟨_, List.mem_map_of_mem hts, b, mem_dropHead_of_ne hb hbt, rfl⟩
    · rcases List.mem_cons.mp hB with rfl | hB
      · -- the least term is merged from the heads, which are the blocks of it
        show block n t (hits t tss) = block n t _
        congr 1
        exact List.filterMap_congr fun ts hts => head?_filter_eq_find? (hasc ts hts) (hge ts hts)
      · -- a later term is found where it was before `t` was merged
        have hne : B.term ≠ t := (Term.ne_of_lt (habove B hB)).symm
        refine (ihblock B hB).trans ?_
        rw [List.filterMap_map]
        congr 1
        exact List.filterMap_congr fun ts _ => find?_dropHead_of_ne hne ts

/-- Merging ascending inputs gives, for each term of the union of their terms in ascending
order, the block merged from the blocks of it the inputs hold. Any strictly ascending list
holding exactly the inputs' terms is that union. -/
theorem terms_eq_union {tss : List (List TermBlock)} (hasc : ∀ ts ∈ tss, Ascending ts)
    {U : List Term} (hU : U.Pairwise (· < ·))
    (hmem : ∀ u, u ∈ U ↔ ∃ ts ∈ tss, ∃ b ∈ ts, b.term = u) :
    terms n tss = U.map fun u => block n u (tss.filterMap (·.find? (·.term = u))) := by
  obtain ⟨hsorted, hmem', hblock⟩ := terms_union (n := n) tss hasc
  have hs : ((terms n tss).map (·.term)).Pairwise (· < ·) := List.pairwise_map.mpr hsorted
  -- two strictly ascending lists with the same terms are equal
  have hterms : (terms n tss).map (·.term) = U := by
    refine List.Perm.eq_of_pairwise (fun a b _ _ hab hba => absurd hba (Term.lt_asymm hab)) hs hU ?_
    exact (List.perm_ext_iff_of_nodup (hs.imp Term.ne_of_lt) (hU.imp Term.ne_of_lt)).mpr
      fun u => (hmem' u).trans (hmem u).symm
  calc terms n tss = ((terms n tss).map (·.term)).map
        (fun u => block n u (tss.filterMap (·.find? (·.term = u)))) := by
        rw [List.map_map]
        refine (List.map_id (terms n tss)).symm.trans (List.map_congr_left fun B hB => ?_)
        exact hblock B hB
    _ = _ := by rw [hterms]

end Merge

end GroupStats
