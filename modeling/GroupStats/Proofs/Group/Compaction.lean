import GroupStats.Proofs.Group.Bound
import GroupStats.Proofs.Group.Tally

/-!
# Compacting a batch in place

A batch of a term's documents is read from the front of a buffer, and the documents outside
group 0 are written back to the front of the same buffer, with their groups beside them. The
write for a document never lands past the place it was read from, so the part not read yet is
never overwritten. `Compacted` is the invariant of the scan after `i` documents: the write
position counts the kept documents among the first `i`, the buffers hold them and their groups in
front, in order, and the buffer from place `i` on is as it was. `compact_spec` is the run of the
scan over the batch.

From it, `nextGroupCallback_exact`: adding a batch keeps exactly its documents outside group 0,
records their groups as seen, and adds each stat's value of each of them to its group's totals,
every other total staying as it was.
-/

namespace GroupStats

namespace Lookup

variable (l : Lookup)

/-- The documents of a list that lie outside group 0, in order. -/
def kept (docs : List DocId) : List DocId := docs.filter fun d => l.get d ≠ noGroup

theorem kept_append (xs ys : List DocId) : l.kept (xs ++ ys) = l.kept xs ++ l.kept ys :=
  List.filter_append ..

theorem kept_singleton (d : DocId) :
    l.kept [d] = if l.get d = noGroup then [] else [d] := by
  by_cases h : l.get d = noGroup <;> simp [kept, h]

theorem length_kept_le (docs : List DocId) : (l.kept docs).length ≤ docs.length :=
  List.length_filter_le ..

/-- The kept documents paired with their groups are the selected ones. -/
theorem selected_eq_kept (docs : List DocId) :
    l.selected docs = (l.kept docs).map fun d => (d, l.get d) := by
  induction docs with
  | nil => rfl
  | cons d ds ih =>
    by_cases h : l.get d = noGroup
    · simp [selected, kept, h] at ih ⊢
      exact ih
    · simp [selected, kept, h] at ih ⊢
      exact ih

/-- A bounded assignment puts every document outside group 0 below its bound. -/
theorem Bounded.get_lt {l : Lookup} (h : l.Bounded) {d : DocId} (hd : l.get d ≠ noGroup) :
    l.get d < l.numGroups := by
  by_cases hs : d.toNat < l.size
  · have hget : l.get d = l.groups[d.toNat] := by
      simp [get, Array.getD_eq_getD_getElem?, Array.getElem?_eq_getElem hs]
    rw [hget]
    exact h.lt _ (Array.getElem_mem hs)
  · have hnone : l.groups[d.toNat]? = none := Array.getElem?_eq_none (Nat.le_of_not_lt hs)
    exact absurd (by simp [get, Array.getD_eq_getD_getElem?, hnone, noGroup]) hd

/-! ### The scan -/

/-- Writing at the end of a prefix extends the prefix by the value written. -/
theorem take_set_succ {α : Type} {xs : List α} {k : Nat} (hk : k < xs.length) (x : α) :
    (xs.set k x).take (k + 1) = xs.take k ++ [x] := by
  rw [List.take_add_one, List.take_set_of_le (Nat.le_refl k), List.getElem?_set_self hk]
  rfl

/-- The state of the scan after the first `i` documents of the buffer `orig`: the write
position `head` counts the kept ones, the buffers hold them and their groups in front, in
order, and the buffer from place `i` on is untouched. -/
structure Compacted (orig : Array DocId) (width i head : Nat) (sc : Scratch) : Prop where
  head_eq : head = (l.kept (orig.toList.take i)).length
  docs_size : sc.docIds.size = orig.size
  groups_size : sc.groups.size = width
  docs : sc.docIds.toList.take head = l.kept (orig.toList.take i)
  groups : sc.groups.toList.take head = (l.kept (orig.toList.take i)).map l.get
  rest : ∀ j, i ≤ j → sc.docIds[j]? = orig[j]?

variable {l} {orig : Array DocId} {width i head : Nat} {sc : Scratch}

theorem compacted_start (orig : Array DocId) (groups : Array GroupId) :
    l.Compacted orig groups.size 0 0 ⟨orig, groups⟩ where
  head_eq := by simp [kept]
  docs_size := rfl
  groups_size := rfl
  docs := by simp [kept]
  groups := by simp [kept]
  rest _ _ := rfl

/-- The write position never passes the read position. -/
theorem Compacted.head_le (h : l.Compacted orig width i head sc) : head ≤ i := by
  rw [h.head_eq]
  exact (l.length_kept_le _).trans (List.length_take_le ..)

/-- The step lemma: reading the document at place `i` and writing it at the write position
when it lies outside group 0 keeps the invariant one place further. -/
theorem Compacted.step (h : l.Compacted orig width i head sc) (hi : i < orig.size)
    (hw : i < width) :
    let d := sc.docIds.getD i 0
    let next : Nat × Scratch := if l.get d = noGroup then (head, sc)
      else (head + 1, ⟨sc.docIds.setIfInBounds head d, sc.groups.setIfInBounds head (l.get d)⟩)
    l.Compacted orig width (i + 1) next.1 next.2 := by
  intro d next
  -- the document read is the original one: nothing was written at place `i` yet
  have hd : d = orig[i] := by
    simp [d, Array.getD_eq_getD_getElem?, h.rest i (Nat.le_refl i), Array.getElem?_eq_getElem hi]
  have htake : orig.toList.take (i + 1) = orig.toList.take i ++ [d] := by
    rw [hd, ← List.take_append_getElem (by simpa using hi)]
    rfl
  have hkept : l.kept (orig.toList.take (i + 1)) =
      l.kept (orig.toList.take i) ++ if l.get d = noGroup then [] else [d] := by
    rw [htake, kept_append, kept_singleton]
  by_cases h0 : l.get d = noGroup
  · simp only [next, h0, if_true, List.append_nil] at hkept ⊢
    exact ⟨by rw [hkept, h.head_eq], h.docs_size, h.groups_size, by rw [hkept, h.docs],
      by rw [hkept, h.groups], fun j hj => h.rest j (by omega)⟩
  · simp only [next, h0, if_false] at hkept ⊢
    have hhead := h.head_le
    have hdocs : head < sc.docIds.toList.length := by simp [h.docs_size]; omega
    have hgroups : head < sc.groups.toList.length := by simp [h.groups_size]; omega
    refine ⟨by rw [hkept, List.length_append, ← h.head_eq]; rfl, by simp [h.docs_size],
      by simp [h.groups_size], ?_, ?_, fun j hj => ?_⟩
    · rw [Array.toList_setIfInBounds, take_set_succ hdocs, h.docs, hkept]
    · rw [Array.toList_setIfInBounds, take_set_succ hgroups, h.groups, hkept, List.map_append]
      rfl
    · rw [← Array.getElem?_toList, Array.toList_setIfInBounds, List.getElem?_set_ne (by omega),
        Array.getElem?_toList]
      exact h.rest j (by omega)

/-- One more document of the scan: the `n`-th is read and, outside group 0, written at the
write position. -/
theorem compact_succ (l : Lookup) (n : Nat) (sc : Scratch) :
    l.compact (n + 1) sc =
      let p := l.compact n sc
      let d := p.2.docIds.getD n 0
      if l.get d = noGroup then (p.1, p.2)
      else (p.1 + 1, ⟨p.2.docIds.setIfInBounds p.1 d, p.2.groups.setIfInBounds p.1 (l.get d)⟩) := by
  unfold compact
  rw [List.range_succ, List.foldl_append]
  rfl

/-- The run lemma: after the first `n` documents the scan stands in the invariant. -/
theorem compacted_compact (l : Lookup) (sc : Scratch) {n : Nat} (hn : n ≤ sc.docIds.size)
    (hw : n ≤ sc.groups.size) :
    l.Compacted sc.docIds sc.groups.size n (l.compact n sc).1 (l.compact n sc).2 := by
  induction n with
  | zero => exact compacted_start sc.docIds sc.groups
  | succ n ih =>
    rw [compact_succ]
    exact (ih (by omega) (by omega)).step (by omega) (by omega)

/-- Compacting the first `n` documents of the buffers keeps exactly those outside group 0, in
order, in front of the document buffer, with their groups in front of the group buffer. -/
theorem compact_spec (l : Lookup) (sc : Scratch) {n : Nat} (hn : n ≤ sc.docIds.size)
    (hw : n ≤ sc.groups.size) :
    (l.compact n sc).1 = (l.kept (sc.docIds.toList.take n)).length ∧
      (l.compact n sc).2.docIds.toList.take (l.compact n sc).1 = l.kept (sc.docIds.toList.take n) ∧
      (l.compact n sc).2.groups.toList.take (l.compact n sc).1 =
        (l.kept (sc.docIds.toList.take n)).map l.get := by
  have h := compacted_compact l sc hn hw
  exact ⟨h.head_eq, h.docs, h.groups⟩

end Lookup

/-! ### Totals, entry by entry -/

namespace Totals

variable {t : Totals} {n : Nat}

/-- Every row of the totals holds one value for each of `n` stats. -/
def Wide (n : Nat) (t : Totals) : Prop := ∀ r ∈ t.rows, r.2.length = n

theorem Wide.length_row (h : t.Wide n) (g : GroupId) : (t.row g n).length = n := by
  unfold row
  cases hf : t.rows.find? (·.1 == g) with
  | none => simp
  | some r => exact h r (List.mem_of_find?_eq_some hf)

theorem Wide.add (h : t.Wide n) (g : GroupId) {stats : List Int64} (hs : stats.length = n) :
    (t.add g stats).Wide n := by
  intro r hr
  rcases List.mem_cons.mp hr with rfl | hr
  · simp [hs, h.length_row]
  · exact h r (List.mem_filter.mp hr).1

/-- Adding a row of `n` stats to group `g'` adds to each total of `g` the matching stat when
`g' = g`, and nothing otherwise. -/
theorem Wide.getD_row_add (h : t.Wide n) (g g' : GroupId) {stats : List Int64}
    (hs : stats.length = n) {s : Nat} (hsn : s < n) :
    ((t.add g' stats).row g n).getD s 0 =
      (t.row g n).getD s 0 + if g' = g then stats.getD s 0 else 0 := by
  by_cases hg : g' = g
  · subst hg
    have hlt : s < (t.row g' n).length := by rw [h.length_row]; exact hsn
    have hlt' : s < stats.length := by omega
    have hrow : (t.row g' n)[s]? = some (t.row g' n)[s] := List.getElem?_eq_getElem hlt
    have hstat : stats[s]? = some stats[s] := List.getElem?_eq_getElem hlt'
    rw [if_pos rfl, row_add_self, hs, List.getD_eq_getElem?_getD, List.getElem?_zipWith,
      List.getD_eq_getElem?_getD, List.getD_eq_getElem?_getD, hrow, hstat]
    rfl
  · rw [if_neg hg, row_add_of_ne _ _ _ _ (Ne.symm hg), Int64.add_zero]

/-- Adding the stats of documents paired with groups adds, to each total of `g`, that stat
summed over the documents paired with `g`. -/
theorem Wide.getD_row_foldl (h : t.Wide n) (stats : List StatColumn) (hn : stats.length = n)
    (ps : List (DocId × GroupId)) (g : GroupId) {s : Nat} {c : StatColumn}
    (hc : stats[s]? = some c) :
    ((ps.foldl (fun t p => t.add p.2 (stats.map (·.get p.1))) t).row g n).getD s 0 =
      (t.row g n).getD s 0 + ((ps.filter (·.2 = g)).map fun p => c.get p.1).sum := by
  have hsn : s < n := hn ▸ (List.getElem?_eq_some_iff.mp hc).1
  induction ps generalizing t with
  | nil => simp
  | cons p ps ih =>
    rw [List.foldl_cons, ih (h.add _ (by simp [hn])), h.getD_row_add _ _ (by simp [hn]) hsn]
    have hstat : (stats.map (·.get p.1)).getD s 0 = c.get p.1 := by
      simp [List.getD_eq_getElem?_getD, hc]
    by_cases hp : p.2 = g
    · rw [if_pos hp, hstat, List.filter_cons_of_pos (by simpa using hp), List.map_cons,
        List.sum_cons, Int64.add_assoc]
    · rw [if_neg hp, Int64.add_zero, List.filter_cons_of_neg (by simpa using hp)]

end Totals

/-! ### Adding a batch -/

theorem zip_map_self {α β : Type} (f : α → β) (xs : List α) :
    xs.zip (xs.map f) = xs.map fun x => (x, f x) := by
  induction xs with
  | nil => rfl
  | cons x xs ih => simp [ih]

namespace Lookup

/-- Adding a batch keeps its documents outside group 0, compacted to the front of the buffers,
records their groups as seen and adds each stat of each of them to its group's totals. -/
theorem nextGroupCallback_eq (l : Lookup) (n : Nat) (sc : Scratch) (hn : n ≤ sc.docIds.size)
    (hw : n ≤ sc.groups.size) (stats : List StatColumn) (totals : Totals) (seen : SeenGroups) :
    let kept := l.kept (sc.docIds.toList.take n)
    (l.nextGroupCallback n sc stats totals seen).kept = kept.length ∧
      (l.nextGroupCallback n sc stats totals seen).scratch = (l.compact n sc).2 ∧
      (l.nextGroupCallback n sc stats totals seen).seen = (kept.map l.get).foldl SeenGroups.insert seen ∧
      (l.nextGroupCallback n sc stats totals seen).totals =
        if stats.isEmpty then totals
        else (kept.map fun d => (d, l.get d)).foldl
          (fun t p => t.add p.2 (stats.map (·.get p.1))) totals := by
  intro kept
  obtain ⟨hhead, hdocs, hgroups⟩ := compact_spec l sc hn hw
  unfold nextGroupCallback
  dsimp only
  rw [hdocs, hgroups, zip_map_self]
  exact ⟨hhead, rfl, rfl, rfl⟩

/-- One batch of a term's documents, compacted in place and added to the totals: the buffers keep in
front exactly the first `n` documents outside group 0, in order with their groups, and only their
groups are recorded as seen. Each total of each group gains, wrapping, that stat summed over the
group's kept documents, and every other total stays. -/
theorem nextGroupCallback_exact (l : Lookup) (hl : l.Bounded) (n : Nat) (sc : Scratch)
    (hn : n ≤ sc.docIds.size) (hw : n ≤ sc.groups.size) (stats : List StatColumn)
    (totals : Totals) (hwide : totals.Wide stats.length) (seen : SeenGroups) :
    let kept := l.kept (sc.docIds.toList.take n)
    let b := l.nextGroupCallback n sc stats totals seen
    b.kept = kept.length ∧
      b.scratch.docIds.toList.take b.kept = kept ∧
      b.scratch.groups.toList.take b.kept = kept.map l.get ∧
      (∀ g ∈ kept.map l.get, g < l.numGroups) ∧
      b.seen = (kept.map l.get).foldl SeenGroups.insert seen ∧
      ∀ g s c, stats[s]? = some c →
        (b.totals.row g stats.length).getD s 0 =
          (totals.row g stats.length).getD s 0 + ((kept.filter (l.get · = g)).map c.get).sum := by
  intro kept b
  obtain ⟨hk, hsc, hseen, htotals⟩ := nextGroupCallback_eq l n sc hn hw stats totals seen
  obtain ⟨hhead, hdocs, hgroups⟩ := compact_spec l sc hn hw
  refine ⟨hk, ?_, ?_, ?_, hseen, fun g s c hc => ?_⟩
  · rw [hsc, hk, ← hhead, hdocs]
  · rw [hsc, hk, ← hhead, hgroups]
  · intro g hg
    obtain ⟨d, hd, rfl⟩ := List.mem_map.mp hg
    exact hl.get_lt (of_decide_eq_true (List.mem_filter.mp hd).2)
  · -- with no stat there is no total to check
    have hne : stats.isEmpty = false := by
      cases stats with
      | nil => simp at hc
      | cons _ _ => rfl
    rw [htotals, hne, if_neg Bool.false_ne_true,
      hwide.getD_row_foldl stats rfl _ g hc, List.filter_map, List.map_map]
    rfl

/-- Documents 0 to 4 in the groups 1, 0, 2, 0 and 1, with one stat: the three documents outside
group 0 are kept. -/
theorem nextGroupCallback_exact_five_docs :
    let l : Lookup := ⟨#[1, 0, 2, 0, 1], 3⟩
    let sc : Scratch := ⟨#[0, 1, 2, 3, 4], #[0, 0, 0, 0, 0]⟩
    let stats : List StatColumn := [⟨#[10, 20, 30, 40, 50]⟩]
    let kept := l.kept (sc.docIds.toList.take 5)
    let b := l.nextGroupCallback 5 sc stats {} (SeenGroups.empty 3)
    (l.Bounded ∧ 5 ≤ sc.docIds.size ∧ 5 ≤ sc.groups.size ∧ Totals.Wide stats.length {}) ∧
      b.kept = kept.length ∧
      b.scratch.docIds.toList.take b.kept = kept ∧
      b.scratch.groups.toList.take b.kept = kept.map l.get ∧
      (∀ g ∈ kept.map l.get, g < l.numGroups) ∧
      b.seen = (kept.map l.get).foldl SeenGroups.insert (SeenGroups.empty 3) ∧
      ∀ g s c, stats[s]? = some c →
        (b.totals.row g stats.length).getD s 0 =
          (({} : Totals).row g stats.length).getD s 0 +
            ((kept.filter (l.get · = g)).map c.get).sum := by
  intro l sc stats kept b
  have hl : l.Bounded := ⟨by simp [l], by simp [l]⟩
  have hwide : Totals.Wide stats.length {} := fun r hr => nomatch hr
  exact ⟨⟨hl, by simp [sc], by simp [sc], hwide⟩,
    nextGroupCallback_exact l hl 5 sc (by simp [sc]) (by simp [sc]) stats {} hwide
      (SeenGroups.empty 3)⟩

end Lookup

end GroupStats
