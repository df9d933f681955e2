import GroupStats.Proofs.Split.Merging
import GroupStats.Proofs.Merge.Union

/-!
# Merging streams sums them

A stream merge over streams that visit the same fields, the terms of each field strictly
ascending, reads as their pointwise sum (`Merge.SumsStreams`). It has the same fields in
order. In each field it has the union of the streams' terms, ascending, and each term sums
the blocks of it that the streams hold there. Its document frequency is the wrapping sum of
theirs. Its groups are those any of the blocks sends, once each and ascending. Each group's
stats are the wrapping sums of every stat vector the blocks send for it. The merge's group
bound is the largest of its inputs' bounds, and at least one.

Each input's groups must lie below that input's own bound, because the merge checks every group
against its bound and rejects the rest. A replay's bound is its largest group plus one, which
wraps to zero for the group `4294967295`, so the merge rejects a replay that holds that group
(`collect_top_group_stray`). A replay of a stream without that group has all its groups below its
bound (`Replay.group_lt_ofBlocks`).

Building a merge fails on no inputs and on inputs with different stat counts. Once running, the
merge fails as corrupt when its inputs move to different fields, or when some of them run out
of fields and others do not (`nextField_corrupt`).
-/

namespace GroupStats

namespace Merge

/-- The stats of the group `g` summed, wrapping, over the rows that carry it, starting from
`n` zeros. -/
def statSum (n : Nat) (rows : List GroupRow) (g : GroupId) : List Int64 :=
  (rows.filter (·.group = g)).foldl (fun acc r => List.zipWith (· + ·) acc r.stats)
    (List.replicate n 0)

end Merge

namespace Totals

/-- Adding rows of `n` stats, the totals of a group gain the stats of the rows of that group,
in order. -/
theorem row_foldl_add {n : Nat} (g : GroupId) :
    ∀ (rs : List GroupRow) (t : Totals), (∀ r ∈ rs, r.stats.length = n) →
      (rs.foldl (fun (t : Totals) r => t.add r.group r.stats) t).row g n =
        (rs.filter (·.group = g)).foldl (fun acc r => List.zipWith (· + ·) acc r.stats) (t.row g n)
  | [], _, _ => rfl
  | r :: rs, t, hn => by
    rw [List.foldl_cons, row_foldl_add g rs _ fun r' hr' => hn r' (List.mem_cons_of_mem _ hr')]
    by_cases hr : r.group = g
    · subst hr
      rw [List.filter_cons_of_pos (by simp), List.foldl_cons, row_add_self,
        hn r (List.mem_cons_self ..)]
    · rw [List.filter_cons_of_neg (by simpa using hr), row_add_of_ne _ _ _ _ (Ne.symm hr)]

/-- Rows of `n` stats added to empty totals give each group the sum of its rows' stats. -/
theorem row_foldl_add_empty {n : Nat} (g : GroupId) {rs : List GroupRow}
    (hn : ∀ r ∈ rs, r.stats.length = n) :
    (rs.foldl (fun (t : Totals) r => t.add r.group r.stats) {}).row g n = Merge.statSum n rs g := by
  rw [row_foldl_add g rs {} hn, row_empty]
  rfl

end Totals

namespace Merge

variable {n : Nat}

/-! ### Summing the blocks of one term -/

/-- Each id of a list is kept once. -/
theorem nodup_distinct (gs : List GroupId) : (distinct gs).Nodup := by
  unfold distinct
  -- the ids kept so far never repeat, and an id is appended only when it is new
  suffices h : ∀ acc : List GroupId, acc.Nodup →
      (gs.foldl (fun acc g => if g ∈ acc then acc else acc ++ [g]) acc).Nodup from
    h [] List.nodup_nil
  induction gs with
  | nil => exact fun _ h => h
  | cons g gs ih =>
    intro acc hacc
    rw [List.foldl_cons]
    apply ih
    split
    · exact hacc
    · rename_i hg
      exact hacc.append (List.nodup_singleton g) fun x hx hx' => hg (List.mem_singleton.mp hx' ▸ hx)

theorem map_group_groups (gss : List (List GroupRow)) :
    (groups n gss).map (·.group) = (distinct (gss.flatten.map (·.group))).mergeSort (· ≤ ·) := by
  simp [groups, List.map_map, Function.comp_def]

/-- The distinct ids of a list, sorted, strictly ascend. -/
theorem ascending_mergeSort_distinct (gs : List GroupId) :
    ((distinct gs).mergeSort (· ≤ ·)).Pairwise (· < ·) := by
  have hle : ((distinct gs).mergeSort fun a b => decide (a ≤ b)).Pairwise
      fun a b => decide (a ≤ b) = true :=
    List.pairwise_mergeSort
      (fun a b c hab hbc => by simpa using UInt32.le_trans (by simpa using hab) (by simpa using hbc))
      (fun a b => by simpa using UInt32.le_total a b) _
  have hnd := (List.mergeSort_perm (distinct gs) fun a b => decide (a ≤ b)).nodup_iff.mpr
    (nodup_distinct _)
  exact hle.imp₂ (fun a b hab hne => UInt32.lt_of_le_of_ne (by simpa using hab) hne) hnd

/-- The summed groups of a term strictly ascend. -/
theorem groups_ascending (gss : List (List GroupRow)) :
    ((groups n gss).map (·.group)).Pairwise (· < ·) := by
  rw [map_group_groups]
  exact ascending_mergeSort_distinct _

/-- A term's summed groups are the groups any of its blocks sends. -/
theorem mem_groups (gss : List (List GroupRow)) (g : GroupId) :
    g ∈ (groups n gss).map (·.group) ↔ ∃ gs ∈ gss, ∃ r ∈ gs, r.group = g := by
  rw [map_group_groups, List.mem_mergeSort, mem_distinct]
  simp

/-- Each summed group of a term carries the sums of the stats its blocks send for it, when
every block sends `n` stats for each of its groups. -/
theorem stats_of_mem_groups {gss : List (List GroupRow)}
    (hn : ∀ gs ∈ gss, ∀ r ∈ gs, r.stats.length = n)
    {r : GroupRow} (hr : r ∈ groups n gss) : r.stats = statSum n gss.flatten r.group := by
  simp only [groups, List.mem_map] at hr
  obtain ⟨g, -, rfl⟩ := hr
  exact Totals.row_foldl_add_empty g fun r hr => by
    obtain ⟨gs, hgs, hr⟩ := List.mem_flatten.mp hr
    exact hn gs hgs r hr

/-- The block `B` sums the blocks `hits` of one term. Its frequency is the wrapping sum of
theirs. Its groups are those any of them sends, once each and ascending. Each group's stats are
the wrapping sums of the stats of every row of the hits that carries it. -/
structure SumsBlocks (n : Nat) (hits : List TermBlock) (B : TermBlock) : Prop where
  docFreq : B.docFreq = (hits.map (·.docFreq)).sum
  ascending : (B.groups.map (·.group)).Pairwise (· < ·)
  mem_groups : ∀ g, g ∈ B.groups.map (·.group) ↔ ∃ b ∈ hits, ∃ r ∈ b.groups, r.group = g
  stats : ∀ r ∈ B.groups, r.stats = statSum n (hits.flatMap (·.groups)) r.group

/-- The merged block of a term sums the blocks that contribute it. -/
theorem sumsBlocks_block {t : Term} {hits : List TermBlock}
    (hn : ∀ b ∈ hits, ∀ r ∈ b.groups, r.stats.length = n) : SumsBlocks n hits (block n t hits) where
  docFreq := by
    show hits.foldl (fun acc b => acc + b.docFreq) 0 = _
    rw [List.sum_eq_foldl, List.foldl_map]
  ascending := groups_ascending _
  mem_groups g := by
    show g ∈ (groups n (hits.map (·.groups))).map (·.group) ↔ _
    rw [mem_groups]
    simp
  stats r hr := by
    rw [List.flatMap_def]
    refine stats_of_mem_groups (fun gs hgs r hr => ?_) hr
    obtain ⟨b, hb, rfl⟩ := List.mem_map.mp hgs
    exact hn b hb r hr

/-! ### Summing streams -/

/-- The terms of the `k`-th field of a stream; none past its last field. -/
def termsAt (k : Nat) (v : Ftgs) : List TermBlock := ((v[k]?).map (·.terms)).getD []

theorem termsAt_zero (v : Ftgs) : termsAt 0 v = firstTerms v := by
  cases v <;> rfl

theorem termsAt_succ (k : Nat) (v : Ftgs) : termsAt (k + 1) v = termsAt k v.tail := by
  cases v <;> rfl

/-- A stream has the terms of one of its fields in its `k`-th field, or none. -/
theorem termsAt_eq (k : Nat) (v : Ftgs) : termsAt k v = [] ∨ ∃ f ∈ v, termsAt k v = f.terms := by
  unfold termsAt
  cases hf : v[k]? with
  | none => exact .inl rfl
  | some f => exact .inr ⟨f, List.mem_of_getElem? hf, rfl⟩

/-- The stream `W` is the pointwise sum of the streams `vs`. It visits their fields in order.
Each of its fields holds, strictly ascending, every term that field holds in any of the streams,
and each term sums the blocks of it that the streams hold in that field. -/
structure SumsStreams (n : Nat) (vs : List Ftgs) (W : Ftgs) : Prop where
  fields : ∀ v ∈ vs, W.map (·.field) = v.map (·.field)
  ascending : ∀ F ∈ W, Ascending F.terms
  mem_terms : ∀ k F, W[k]? = some F →
    ∀ t, t ∈ F.terms.map (·.term) ↔ ∃ v ∈ vs, ∃ b ∈ termsAt k v, b.term = t
  sums : ∀ k F, W[k]? = some F → ∀ B ∈ F.terms,
    SumsBlocks n ((vs.map (termsAt k)).filterMap (·.find? (·.term = B.term))) B

/-- The `k`-th field of the merge of aligned streams is named as the `k`-th field of the first
of them, and merges the terms every stream has in its `k`-th field. -/
theorem getElem?_fields (k : Nat) :
    ∀ {vs : List Ftgs}, vs ≠ [] → Aligned vs →
      (fields n vs)[k]? =
        (vs.head?.bind (·[k]?)).map fun f => ⟨f.field, terms n (vs.map (termsAt k))⟩ := by
  induction k with
  | zero =>
    intro vs hne ha
    obtain ⟨v₀, vs', rfl⟩ := List.exists_cons_of_ne_nil hne
    rcases v₀ with _ | ⟨f₀, r₀⟩
    · rw [fields_nil_cons]
      rfl
    · rw [fields_of_cons rfl]
      simp [List.map_congr_left fun v _ => (termsAt_zero v).symm]
  | succ k ih =>
    intro vs hne ha
    obtain ⟨v₀, vs', rfl⟩ := List.exists_cons_of_ne_nil hne
    rcases v₀ with _ | ⟨f₀, r₀⟩
    · rw [fields_nil_cons]
      rfl
    · -- past the first field, the merge is that of the streams' tails
      rw [fields_of_cons rfl, List.getElem?_cons_succ, ih (by simp) ha.tail,
        show termsAt (k + 1) = fun v => termsAt k v.tail from funext (termsAt_succ k)]
      simp [List.map_map, Function.comp_def]

/-- The merge of aligned streams visits the fields each of them visits. -/
theorem map_field_fields {vs : List Ftgs} (hne : vs ≠ []) (ha : Aligned vs) {v : Ftgs} (hv : v ∈ vs) :
    (fields n vs).map (·.field) = v.map (·.field) := by
  obtain ⟨v₀, vs', rfl⟩ := List.exists_cons_of_ne_nil hne
  rw [← ha v₀ (List.mem_cons_self ..) v hv]
  apply List.ext_getElem?
  intro k
  rw [List.getElem?_map, getElem?_fields k hne ha, List.getElem?_map]
  simp [Option.map_map, Function.comp_def]

/-- Streams that visit the same fields, with strictly ascending terms in each field and `n`
stats in every group, merge to their pointwise sum. -/
theorem sumsStreams_fields {vs : List Ftgs} (hne : vs ≠ []) (ha : Aligned vs)
    (hasc : ∀ v ∈ vs, ∀ f ∈ v, Ascending f.terms)
    (hn : ∀ v ∈ vs, ∀ f ∈ v, ∀ b ∈ f.terms, ∀ r ∈ b.groups, r.stats.length = n) :
    SumsStreams n vs (fields n vs) := by
  -- the `k`-th fields of the streams, as inputs of a term merge
  have hascAt : ∀ k, ∀ ts ∈ vs.map (termsAt k), Ascending ts := by
    intro k ts hts
    obtain ⟨v, hv, rfl⟩ := List.mem_map.mp hts
    rcases termsAt_eq k v with h | ⟨f, hf, h⟩ <;> rw [h]
    · exact List.Pairwise.nil
    · exact hasc v hv f hf
  have hterms : ∀ k F, (fields n vs)[k]? = some F → F.terms = terms n (vs.map (termsAt k)) := by
    intro k F hF
    rw [getElem?_fields k hne ha, Option.map_eq_some_iff] at hF
    obtain ⟨f, -, rfl⟩ := hF
    rfl
  refine ⟨fun v hv => map_field_fields hne ha hv, fun F hF => ?_, fun k F hF t => ?_,
    fun k F hF B hB => ?_⟩
  · obtain ⟨k, hk⟩ := List.mem_iff_getElem?.mp hF
    rw [hterms k F hk]
    exact (terms_union _ (hascAt k)).1
  · rw [hterms k F hF, (terms_union _ (hascAt k)).2.1 t]
    simp
  · rw [hterms k F hF] at hB
    rw [(terms_union _ (hascAt k)).2.2 B hB]
    refine sumsBlocks_block fun b hb r hr => ?_
    -- a block found in the `k`-th field of a stream is one of that field's blocks
    obtain ⟨ts, hts, hfind⟩ := List.mem_filterMap.mp hb
    obtain ⟨v, hv, rfl⟩ := List.mem_map.mp hts
    have hbk : b ∈ termsAt k v := List.mem_of_find?_eq_some hfind
    rcases termsAt_eq k v with h | ⟨f, hf, h⟩ <;> rw [h] at hbk
    · cases hbk
    · exact hn v hv f hf b hbk r hr

end Merge

namespace Merger

open Replay

variable {τ : Type} [Cursor τ] {S : τ → View → Prop}

/-! ### Building a merge -/

omit [Cursor τ] in
/-- The running maximum of a fold is its start or one of the elements. -/
theorem foldl_max_eq (f : τ → UInt32) : ∀ (xs : List τ) (init : UInt32),
    xs.foldl (fun m i => if m < f i then f i else m) init = init ∨
      ∃ x ∈ xs, xs.foldl (fun m i => if m < f i then f i else m) init = f x
  | [], _ => .inl rfl
  | x :: xs, init => by
    rcases foldl_max_eq f xs (if init < f x then f x else init) with h | ⟨y, hy, h⟩
    · rw [List.foldl_cons, h]
      split
      · exact .inr ⟨x, List.mem_cons_self .., rfl⟩
      · exact .inl rfl
    · exact .inr ⟨y, List.mem_cons_of_mem _ hy, h⟩

/-- A merge that could be built bounds its groups by the largest of its inputs' bounds, and by
one at least. -/
theorem numGroups_create {inputs : List τ} {m : Merger τ} (hm : create inputs = .ok m) :
    1 ≤ m.numGroups ∧ (∀ c ∈ inputs, Cursor.numGroups c ≤ m.numGroups) ∧
      (m.numGroups = 1 ∨ ∃ c ∈ inputs, Cursor.numGroups c = m.numGroups) := by
  have hg : m.numGroups =
      inputs.foldl (fun m i => if m < Cursor.numGroups i then Cursor.numGroups i else m) 1 := by
    unfold create at hm
    split at hm
    · cases hm
    · dsimp only at hm
      split at hm
      · cases hm
      · cases hm
        rfl
  rw [hg]
  obtain ⟨hle, hall⟩ := le_foldl_max Cursor.numGroups inputs 1
  refine ⟨hle, hall, ?_⟩
  rcases foldl_max_eq Cursor.numGroups inputs 1 with h | ⟨c, hc, h⟩
  · exact .inl h
  · exact .inr ⟨c, hc, h.symm⟩

/-- Inputs that disagree on their stat count are refused, naming the first input's count and
the count of the first input that differs from it. -/
theorem create_of_numStats_ne {inputs : List τ}
    (h : ∃ c ∈ inputs, ∃ c' ∈ inputs, Cursor.numStats c ≠ Cursor.numStats c') :
    ∃ c ∈ inputs, ∃ c' ∈ inputs, Cursor.numStats c ≠ Cursor.numStats c' ∧
      create inputs =
        .error (.invalidArgument (.statCountsDiffer (Cursor.numStats c) (Cursor.numStats c'))) := by
  obtain ⟨first, rest, rfl⟩ : ∃ first rest, inputs = first :: rest := by
    obtain ⟨c, hc, -⟩ := h
    exact List.exists_cons_of_ne_nil (List.ne_nil_of_mem hc)
  cases hfind : (first :: rest).find? (Cursor.numStats · != Cursor.numStats first) with
  | none =>
    -- every input has the first one's count, so no two differ
    obtain ⟨c, hc, c', hc', hne⟩ := h
    have hall : ∀ d ∈ first :: rest, Cursor.numStats d = Cursor.numStats first := fun d hd => by
      simpa using List.find?_eq_none.mp hfind d hd
    exact absurd ((hall c hc).trans (hall c' hc').symm) hne
  | some bad =>
    have hbad := List.find?_some hfind
    refine ⟨first, List.mem_cons_self .., bad, List.mem_of_find?_eq_some hfind,
      fun he => by simp [he] at hbad, ?_⟩
    simp [create, hfind]

/-! ### Inputs that move apart -/

/-- Inputs paired with whether each reached a field, as the outcomes of moving them. -/
def movesOf (ys : List (Lane τ × Bool)) : List (Lane τ × Except Error Bool) :=
  ys.map fun q => (q.1, .ok q.2)

omit [Cursor τ] in
@[simp] theorem movesOf_nil : movesOf ([] : List (Lane τ × Bool)) = [] := rfl

omit [Cursor τ] in
@[simp] theorem movesOf_cons (l : Lane τ) (b : Bool) (ys : List (Lane τ × Bool)) :
    movesOf ((l, b) :: ys) = (l, .ok b) :: movesOf ys := rfl

/-- What one step of checking where the inputs moved does with an input that did not fail. The
first input to reach a field names it, a later one on another field records a mismatch, and an
input that ran out is counted. -/
structure AgreeStep (step : Option Field × Nat × Option Error × Nat → Lane τ × Except Error Bool →
    Option Field × Nat × Option Error × Nat) : Prop where
  first : ∀ l e x i, step (none, e, x, i) (l, .ok true) = (some (Cursor.field l.inner), e, x, i + 1)
  same : ∀ l F e x i, Cursor.field l.inner = F →
    step (some F, e, x, i) (l, .ok true) = (some F, e, x, i + 1)
  other : ∀ l F e x i, F ≠ Cursor.field l.inner → step (some F, e, x, i) (l, .ok true) =
    (some F, e, x <|> some (.corrupt (.fieldMismatch i (Cursor.field l.inner) F)), i + 1)
  ended : ∀ l f e x i, step (f, e, x, i) (l, .ok false) = (f, e + 1, x, i + 1)

namespace AgreeStep

variable {step : Option Field × Nat × Option Error × Nat → Lane τ × Except Error Bool →
    Option Field × Nat × Option Error × Nat}

/-- One step: an input that reached a field names it if none was named, one that ran out is
counted, and a failure is recorded only as a mismatch with the named field. -/
theorem apply (hs : AgreeStep step) (l : Lane τ) (b : Bool) (f : Option Field) (e : Nat)
    (x : Option Error) (i : Nat) :
    ∃ x', step (f, e, x, i) (l, .ok b) =
        ((if b then f <|> some (Cursor.field l.inner) else f), (if b then e else e + 1), x', i + 1) ∧
      (x' = x ∨ ∃ c, x' = (x <|> some (.corrupt c))) ∧
      (x' = none → b = true → ∀ F, f = some F → Cursor.field l.inner = F) := by
  cases b with
  | false => exact ⟨x, by rw [hs.ended]; rfl, .inl rfl, fun _ h => absurd h Bool.false_ne_true⟩
  | true =>
    cases f with
    | none => exact ⟨x, by rw [hs.first]; rfl, .inl rfl, fun _ _ F hF => absurd hF (by simp)⟩
    | some F =>
      by_cases hF : Cursor.field l.inner = F
      · exact ⟨x, by rw [hs.same l F e x i hF]; rfl, .inl rfl,
          fun _ _ F' hF' => (Option.some.inj hF') ▸ hF⟩
      · refine ⟨_, by rw [hs.other l F e x i (Ne.symm hF)]; rfl, .inr ⟨_, rfl⟩, fun hx => ?_⟩
        cases x <;> cases hx

/-- Once named, the field stays named. -/
theorem foldl_field (hs : AgreeStep step) {F : Field} :
    ∀ (ys : List (Lane τ × Bool)) (e : Nat) (x : Option Error) (i : Nat),
      ((movesOf ys).foldl step (some F, e, x, i)).1 = some F
  | [], _, _, _ => rfl
  | (l, b) :: ys, e, x, i => by
    obtain ⟨x', hstep, -⟩ := hs.apply l b (some F) e x i
    rw [movesOf_cons, List.foldl_cons, hstep]
    cases b <;> exact hs.foldl_field ys _ _ _

/-- Once recorded, a failure stays. -/
theorem foldl_failure (hs : AgreeStep step) {e' : Error} :
    ∀ (ys : List (Lane τ × Bool)) (f : Option Field) (e : Nat) (i : Nat),
      ((movesOf ys).foldl step (f, e, some e', i)).2.2.1 = some e'
  | [], _, _, _ => rfl
  | (l, b) :: ys, f, e, i => by
    obtain ⟨x', hstep, hx', -⟩ := hs.apply l b f e (some e') i
    rw [movesOf_cons, List.foldl_cons, hstep]
    -- a mismatch after a failure keeps the failure
    obtain rfl : x' = some e' := by
      rcases hx' with rfl | ⟨c, rfl⟩ <;> rfl
    exact hs.foldl_failure ys _ _ _

/-- The only failures recorded are mismatches, which are corrupt. -/
theorem foldl_failure_corrupt (hs : AgreeStep step) :
    ∀ (ys : List (Lane τ × Bool)) (f : Option Field) (e : Nat) (x : Option Error) (i : Nat),
      (x = none ∨ ∃ c, x = some (.corrupt c)) →
      ((movesOf ys).foldl step (f, e, x, i)).2.2.1 = none ∨
        ∃ c, ((movesOf ys).foldl step (f, e, x, i)).2.2.1 = some (.corrupt c)
  | [], _, _, _, _, hx => hx
  | (l, b) :: ys, f, e, x, i, hx => by
    obtain ⟨x', hstep, hx', -⟩ := hs.apply l b f e x i
    rw [movesOf_cons, List.foldl_cons, hstep]
    refine hs.foldl_failure_corrupt ys _ _ _ _ ?_
    rcases hx' with rfl | ⟨c, rfl⟩
    · exact hx
    · rcases hx with rfl | ⟨c', rfl⟩
      · exact .inr ⟨c, rfl⟩
      · exact .inr ⟨c', rfl⟩

/-- Every input that ran out is counted. -/
theorem foldl_ended (hs : AgreeStep step) :
    ∀ (ys : List (Lane τ × Bool)) (f : Option Field) (e : Nat) (x : Option Error) (i : Nat),
      ((movesOf ys).foldl step (f, e, x, i)).2.1 = e + ys.countP fun q => !q.2
  | [], _, _, _, _ => rfl
  | (l, b) :: ys, f, e, x, i => by
    obtain ⟨x', hstep, -⟩ := hs.apply l b f e x i
    rw [movesOf_cons, List.foldl_cons, hstep, hs.foldl_ended ys, List.countP_cons]
    cases b
    · simp only [Bool.false_eq_true, ↓reduceIte, Bool.not_false]
      omega
    · simp

/-- When no mismatch was recorded, every input that reached a field reached the named one. -/
theorem foldl_agree (hs : AgreeStep step) :
    ∀ (ys : List (Lane τ × Bool)) (f : Option Field) (e : Nat) (x : Option Error) (i : Nat),
      ((movesOf ys).foldl step (f, e, x, i)).2.2.1 = none →
        ∀ q ∈ ys, q.2 = true → ((movesOf ys).foldl step (f, e, x, i)).1 = some (Cursor.field q.1.inner)
  | [], _, _, _, _, _, q, hq, _ => by cases hq
  | (l, b) :: ys, f, e, x, i, hnone, q, hq, hb => by
    obtain ⟨x', hstep, -, hsame⟩ := hs.apply l b f e x i
    rw [movesOf_cons, List.foldl_cons, hstep] at hnone ⊢
    rcases List.mem_cons.mp hq with rfl | hq
    · -- the first input: the field it reached is the one named from then on
      have hx' : x' = none := by
        cases x' with
        | none => rfl
        | some e' => rw [hs.foldl_failure] at hnone; cases hnone
      subst hb
      show _ = some (Cursor.field l.inner)
      cases f with
      | none => exact hs.foldl_field ys _ _ _
      | some F =>
        rw [hsame hx' rfl F rfl]
        exact hs.foldl_field ys _ _ _
    · exact hs.foldl_agree ys _ _ _ _ hnone q hq hb

end AgreeStep

omit [Cursor τ] in
theorem exists_mem_zip_of_mem_right {α β : Type} {as : List α} {bs : List β} {b : β}
    (hlen : bs.length = as.length) (hb : b ∈ bs) : ∃ a, (a, b) ∈ as.zip bs := by
  obtain ⟨i, hi⟩ := List.mem_iff_getElem?.mp hb
  have hi' : i < as.length := hlen ▸ (List.getElem?_eq_some_iff.mp hi).1
  exact ⟨as[i],
    List.mem_of_getElem? (List.getElem?_zip_eq_some.mpr ⟨List.getElem?_eq_getElem hi', hi⟩)⟩

/-- Inputs that moved without failing, some to a field, agree only when all ran out or all
reached one field: otherwise the check fails as corrupt. -/
theorem agree_corrupt {lanes : List (Lane τ)} {bs : List Bool} (hlen : bs.length = lanes.length)
    (hmoved : true ∈ bs)
    (hfield : ¬ ∃ F, ∀ q ∈ lanes.zip bs, q.2 = true ∧ Cursor.field q.1.inner = F) :
    ∃ c, agree lanes (bs.map .ok) = .error (.corrupt c) := by
  unfold agree
  extract_lets step
  have hs : AgreeStep step :=
    ⟨fun _ _ _ _ => rfl, fun _ _ _ _ _ h => by simp [step, h], fun _ _ _ _ _ h => by simp [step, h],
      fun _ _ _ _ _ => rfl⟩
  have hzip : lanes.zip (bs.map .ok) = movesOf (lanes.zip bs) := by
    rw [List.zip_map_right]
    rfl
  rw [hzip]
  have hcorrupt := hs.foldl_failure_corrupt (lanes.zip bs) none 0 none 0 (.inl rfl)
  have hended := hs.foldl_ended (lanes.zip bs) none 0 none 0
  have hagree := hs.foldl_agree (lanes.zip bs) none 0 none 0
  generalize (movesOf (lanes.zip bs)).foldl step (none, 0, none, 0) = r at hcorrupt hended hagree ⊢
  obtain ⟨f, ended, x, i⟩ := r
  rcases hcorrupt with hx | ⟨c, hx⟩
  · -- no mismatch: some input ran out while another reached a field
    simp only at hx hended hagree
    subst hx
    have hlen' : (lanes.zip bs).length = lanes.length := by simp [hlen]
    obtain ⟨l, hl⟩ := exists_mem_zip_of_mem_right hlen hmoved
    have hpos : ended ≠ 0 := by
      intro h0
      have hc : (lanes.zip bs).countP (fun q => !q.2) = 0 := by omega
      refine hfield ⟨Cursor.field l.inner, fun q hq => ?_⟩
      -- with none ran out, every input reached the field named first
      have hq2 : q.2 = true := by
        simpa using List.countP_eq_zero.mp hc q hq
      exact ⟨hq2, Option.some.inj ((hagree rfl q hq hq2).symm.trans (hagree rfl _ hl rfl))⟩
    have hlt : ended ≠ lanes.length := by
      intro hall
      have hc : (lanes.zip bs).countP (fun q => !q.2) = (lanes.zip bs).length := by omega
      have := List.countP_eq_length.mp hc _ hl
      simp at this
    exact ⟨.endedEarly ended lanes.length, by simp [hpos, hlt]⟩
  · simp only at hx
    exact ⟨c, by simp [hx]⟩

/-- A merge whose inputs move to different fields, or of which some run out of fields while
others do not, fails as corrupt on moving to its next field. -/
theorem nextField_corrupt (hS : ViewSim S) {m : Merger τ} {us : List View} (hopen : m.closed = false)
    (hrel : Related S m.lanes us)
    (hdiff : ∃ u ∈ us, ∃ u' ∈ us, u.fields.head?.map (·.field) ≠ u'.fields.head?.map (·.field)) :
    ∃ c, (nextField.apply m).1 = .error (.corrupt c) := by
  obtain ⟨hrun, -⟩ := hrel.nextField hS
  set lanes' := m.lanes.map fun l => ((Lane.onInner Cursor.nextField).apply l).2
  set bs := us.map fun u => !u.fields.isEmpty
  have hlen : bs.length = lanes'.length := by simp [bs, lanes', hrel.1]
  -- after moving, each lane reports whether its view had a field, and shows that field
  have hpair : ∀ u ∈ us, ∃ l', (l', !u.fields.isEmpty) ∈ lanes'.zip bs ∧
      ∀ f ∈ u.fields.head?, Cursor.field l'.inner = f.field := by
    intro u hu
    obtain ⟨i, hi⟩ := List.mem_iff_getElem?.mp hu
    obtain ⟨l, hl, hlu⟩ := hrel.exists_lane hi
    refine ⟨((Lane.onInner Cursor.nextField).apply l).2, ?_, (Lane.nextField_view hS hlu).2.2⟩
    have hz : (lanes'.zip bs)[i]? =
        some (((Lane.onInner Cursor.nextField).apply l).2, !u.fields.isEmpty) :=
      List.getElem?_zip_eq_some.mpr ⟨by simp [lanes', hl], by simp [bs, hi]⟩
    exact List.mem_of_getElem? hz
  obtain ⟨u, hu, u', hu', hne⟩ := hdiff
  have hmoved : true ∈ bs := by
    -- not every view has run out, or the two would agree on having no field
    by_contra hnone
    have hend : ∀ v ∈ us, v.fields = [] := fun v hv => by
      have hb : (!v.fields.isEmpty) ∈ bs := List.mem_map_of_mem hv
      cases hf : v.fields with
      | nil => rfl
      | cons f fs => simp [hf] at hb; exact absurd hb hnone
    simp [hend u hu, hend u' hu'] at hne
  have hfield : ¬ ∃ F, ∀ q ∈ lanes'.zip bs, q.2 = true ∧ Cursor.field q.1.inner = F := by
    rintro ⟨F, hF⟩
    -- every view would then have `F` next
    have hall : ∀ v ∈ us, v.fields.head?.map (·.field) = some F := by
      intro v hv
      obtain ⟨l', hmem, hshow⟩ := hpair v hv
      obtain ⟨hon, hF'⟩ := hF _ hmem
      cases hv' : v.fields with
      | nil => simp [hv'] at hon
      | cons f fs => simp [← hF', hshow f (by simp [hv'])]
    exact hne ((hall u hu).trans (hall u' hu').symm)
  obtain ⟨c, hagree⟩ := agree_corrupt hlen hmoved hfield
  simp only [bs, List.map_map, Function.comp_def] at hagree
  refine ⟨c, ?_⟩
  simp only [Merger.nextField, Step.apply_bind, Step.apply_get, hopen, Bool.false_eq_true, if_false,
    Step.apply_modify, lanes_resetTerm, hrun, hagree]
  rfl

/-! ### Merging replays -/

/-- Replays stand at their own views. -/
theorem related_views (lanes : List (Lane Replay)) :
    Related (fun (r : Replay) w => r.view = w) lanes (lanes.map (·.inner.view)) := by
  refine ⟨by simp, fun i l u hl hu => ?_⟩
  rw [List.getElem?_map, hl] at hu
  exact Option.some.inj hu

/-- Merging replays: building fails on no inputs or on differing stat counts, and replays at their
starts that agree on the stat count, visit the same fields and hold strictly ascending terms and
groups merge to their pointwise sum under the largest bound. A merge whose replays would move to
different fields fails as corrupt on its next field. -/
theorem merge_sums_pointwise (n : Nat) (inputs : List Replay) :
    (inputs = [] → Merger.create inputs = .error (.invalidArgument .noMergeInputs)) ∧
    ((∃ r ∈ inputs, ∃ r' ∈ inputs, r.numStats ≠ r'.numStats) →
      ∃ r ∈ inputs, ∃ r' ∈ inputs, r.numStats ≠ r'.numStats ∧
        Merger.create inputs = .error (.invalidArgument (.statCountsDiffer r.numStats r'.numStats))) ∧
    (inputs ≠ [] → (∀ r ∈ inputs, r.fieldPos = 0 ∧ r.numStats = n) →
      (∀ r ∈ inputs, ∀ f ∈ r.blocks, Merge.Ascending f.terms ∧
        ∀ t ∈ f.terms, ∀ g ∈ t.groups, g.group < r.numGroups ∧ g.stats.length = n) →
      Merge.Aligned (inputs.map (·.blocks)) →
      ∃ m W, Merger.create inputs = .ok m ∧
        (1 ≤ m.numGroups ∧ (∀ r ∈ inputs, r.numGroups ≤ m.numGroups) ∧
          (m.numGroups = 1 ∨ ∃ r ∈ inputs, r.numGroups = m.numGroups)) ∧
        (Cursor.collect.apply m).1 = .ok W ∧ Merge.SumsStreams n (inputs.map (·.blocks)) W) ∧
    (∀ m : Merger Replay, m.closed = false →
      (∃ l ∈ m.lanes, ∃ l' ∈ m.lanes,
        l.inner.blocks[l.inner.fieldPos]?.map (·.field) ≠
          l'.inner.blocks[l'.inner.fieldPos]?.map (·.field)) →
      ∃ c, (Merger.nextField.apply m).1 = .error (.corrupt c)) := by
  refine ⟨by rintro rfl; rfl, create_of_numStats_ne, fun hne hin hfit haligned => ?_,
    fun m hopen hdiff => ?_⟩
  · obtain ⟨m, hm, hcollect⟩ := collect_create viewSim_self (fun r _ h => h ▸ groups_view_le r)
      (List.forall₂_map_right_iff.mpr (List.forall₂_same.mpr fun r hr =>
        start_of_fieldPos (hin r hr).1 fun f hf t ht g hg => ((hfit r hr f hf).2 t ht g hg).1))
      hne (fun r hr => (hin r hr).2) haligned
    refine ⟨m, _, hm, numGroups_create hm, hcollect,
      Merge.sumsStreams_fields (by simpa using hne) haligned ?_ ?_⟩
    · intro v hv f hf
      obtain ⟨r, hr, rfl⟩ := List.mem_map.mp hv
      exact (hfit r hr f hf).1
    · intro v hv f hf t ht g hg
      obtain ⟨r, hr, rfl⟩ := List.mem_map.mp hv
      exact ((hfit r hr f hf).2 t ht g hg).2
  · -- a replay's next field heads the fields its view has left
    refine nextField_corrupt viewSim_self hopen (related_views m.lanes) ?_
    obtain ⟨l, hl, l', hl', hne⟩ := hdiff
    refine ⟨_, List.mem_map_of_mem hl, _, List.mem_map_of_mem hl', ?_⟩
    simpa [Replay.view, List.head?_drop] using hne

/-- Two replays of an integer field and a string field, sharing a term in each. -/
theorem merge_sums_pointwise_two_streams :
    let a := Replay.ofBlocks [⟨⟨"f", .int⟩, [⟨.int 1, 2, [⟨1, [10]⟩, ⟨3, [5]⟩]⟩, ⟨.int 4, 1, [⟨2, [1]⟩]⟩]⟩,
      ⟨⟨"s", .string⟩, [⟨.bytes [120], 1, [⟨1, [1]⟩]⟩]⟩] 1
    let b := Replay.ofBlocks [⟨⟨"f", .int⟩, [⟨.int 1, 3, [⟨2, [7]⟩, ⟨3, [1]⟩]⟩]⟩,
      ⟨⟨"s", .string⟩, [⟨.bytes [119], 2, [⟨2, [2]⟩]⟩, ⟨.bytes [120], 4, [⟨1, [3]⟩]⟩]⟩] 1
    [a, b] ≠ [] ∧ (∀ r ∈ [a, b], r.fieldPos = 0 ∧ r.numStats = 1) ∧
      (∀ r ∈ [a, b], ∀ f ∈ r.blocks, Merge.Ascending f.terms ∧
        ∀ t ∈ f.terms, ∀ g ∈ t.groups, g.group < r.numGroups ∧ g.stats.length = 1) ∧
      Merge.Aligned ([a, b].map (·.blocks)) ∧
      ∃ m W, Merger.create [a, b] = .ok m ∧
        (1 ≤ m.numGroups ∧ (∀ r ∈ [a, b], r.numGroups ≤ m.numGroups) ∧
          (m.numGroups = 1 ∨ ∃ r ∈ [a, b], r.numGroups = m.numGroups)) ∧
        (Cursor.collect.apply m).1 = .ok W ∧ Merge.SumsStreams 1 ([a, b].map (·.blocks)) W := by
  intro a b
  have hin : ∀ r ∈ [a, b], r.fieldPos = 0 ∧ r.numStats = 1 := by decide
  have hfit : ∀ r ∈ [a, b], ∀ f ∈ r.blocks, Merge.Ascending f.terms ∧
      ∀ t ∈ f.terms, ∀ g ∈ t.groups, g.group < r.numGroups ∧ g.stats.length = 1 := by
    simp only [a, b, Merge.Ascending]
    decide
  have haligned : Merge.Aligned ([a, b].map (·.blocks)) := by
    simp only [a, b, Merge.Aligned]
    decide
  exact ⟨by simp, hin, hfit, haligned,
    (merge_sums_pointwise 1 [a, b]).2.2.1 (by simp) hin hfit haligned⟩

example : ∃ m, Merger.create
      [Replay.ofBlocks [⟨⟨"f", .int⟩, [⟨.int 1, 2, [⟨1, [10]⟩, ⟨3, [5]⟩]⟩, ⟨.int 4, 1, [⟨2, [1]⟩]⟩]⟩,
        ⟨⟨"s", .string⟩, [⟨.bytes [120], 1, [⟨1, [1]⟩]⟩]⟩] 1,
      Replay.ofBlocks [⟨⟨"f", .int⟩, [⟨.int 1, 3, [⟨2, [7]⟩, ⟨3, [1]⟩]⟩]⟩,
        ⟨⟨"s", .string⟩, [⟨.bytes [119], 2, [⟨2, [2]⟩]⟩, ⟨.bytes [120], 4, [⟨1, [3]⟩]⟩]⟩] 1] = .ok m ∧
    m.numGroups = 4 ∧
    (Cursor.collect.apply m).1 = .ok
      [⟨⟨"f", .int⟩, [⟨.int 1, 5, [⟨1, [10]⟩, ⟨2, [7]⟩, ⟨3, [6]⟩]⟩, ⟨.int 4, 1, [⟨2, [1]⟩]⟩]⟩,
        ⟨⟨"s", .string⟩, [⟨.bytes [119], 2, [⟨2, [2]⟩]⟩, ⟨.bytes [120], 5, [⟨1, [4]⟩]⟩]⟩] :=
  ⟨_, rfl, by decide, by cbv⟩

/-- A replay holding the group `4294967295` announces the bound `0`, its largest group plus one
wrapped. The merge over it takes the bound `1` and refuses that group as corrupt. -/
theorem collect_top_group_stray :
    let r := Replay.ofBlocks [⟨⟨"f", .int⟩, [⟨.int 1, 1, [⟨4294967295, [3]⟩]⟩]⟩] 1
    r.numGroups = 0 ∧ ∃ m, Merger.create [r] = .ok m ∧ m.numGroups = 1 ∧
      (Cursor.collect.apply m).1 = .error (.corrupt (.strayGroup 0 4294967295 1)) := by
  intro r
  exact ⟨by decide, _, rfl, by decide, by cbv⟩

end Merger

/-! ### A replay's group bound -/

namespace Ftgs

/-- The largest group of a stream is the running maximum over all its groups. -/
theorem maxGroup_eq_foldl (s : Ftgs) :
    s.maxGroup = (s.flatMap fun f => f.terms.flatMap (·.groups)).foldl
      (fun acc g => if acc < g.group then g.group else acc) 0 := by
  simp only [maxGroup, List.foldl_flatMap]

/-- Every group of a stream is at most its largest group. -/
theorem le_maxGroup {s : Ftgs} {f : FieldBlock} (hf : f ∈ s) {t : TermBlock} (ht : t ∈ f.terms)
    {g : GroupRow} (hg : g ∈ t.groups) : g.group ≤ s.maxGroup := by
  rw [maxGroup_eq_foldl]
  exact (Merger.le_foldl_max GroupRow.group _ 0).2 g
    (List.mem_flatMap.mpr ⟨f, hf, List.mem_flatMap.mpr ⟨t, ht, hg⟩⟩)

/-- The largest group of a stream is one of its groups, or zero when it has none. -/
theorem maxGroup_mem (s : Ftgs) :
    s.maxGroup = 0 ∨ ∃ f ∈ s, ∃ t ∈ f.terms, ∃ g ∈ t.groups, g.group = s.maxGroup := by
  rw [maxGroup_eq_foldl]
  rcases Merger.foldl_max_eq GroupRow.group _ 0 with h | ⟨g, hg, h⟩
  · exact .inl h
  · obtain ⟨f, hf, hg⟩ := List.mem_flatMap.mp hg
    obtain ⟨t, ht, hg⟩ := List.mem_flatMap.mp hg
    exact .inr ⟨f, hf, t, ht, g, hg, h.symm⟩

end Ftgs

namespace Replay

/-- A replay of a stream without the group `4294967295` announces a bound above each of its
groups: its largest group plus one does not wrap. -/
theorem group_lt_ofBlocks {v : Ftgs} (n : Nat) (atLeast : UInt32)
    (htop : ∀ f ∈ v, ∀ t ∈ f.terms, ∀ g ∈ t.groups, g.group ≠ 4294967295) :
    ∀ f ∈ v, ∀ t ∈ f.terms, ∀ g ∈ t.groups, g.group < (ofBlocks v n atLeast).numGroups := by
  intro f hf t ht g hg
  have hle := Ftgs.le_maxGroup hf ht hg
  -- the largest group is one of the groups or zero, so it is not the top id either
  have hmax : v.maxGroup ≠ 4294967295 := by
    rcases Ftgs.maxGroup_mem v with h | ⟨f', hf', t', ht', g', hg', h⟩
    · rw [h]
      decide
    · rw [← h]
      exact htop f' hf' t' ht' g' hg'
  have hlt : g.group < v.maxGroup + 1 := by
    have hm : v.maxGroup.toNat ≠ 4294967295 := fun h => hmax (UInt32.toNat_inj.mp (by rw [h]; rfl))
    have hbound := UInt32.toNat_lt v.maxGroup
    rw [UInt32.le_iff_toNat_le] at hle
    rw [UInt32.lt_iff_toNat_lt, UInt32.toNat_add, UInt32.toNat_one]
    omega
  show g.group < (if v.maxGroup + 1 < atLeast then atLeast else v.maxGroup + 1)
  split
  · exact UInt32.lt_trans hlt ‹_›
  · exact hlt

end Replay

end GroupStats
