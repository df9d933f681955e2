import GroupStats.Shard.Stream
import GroupStats.Proofs.Merge.Merger
import GroupStats.Proofs.Merge.Pointwise
import GroupStats.Proofs.Group.Moves
import GroupStats.Proofs.Group.Compaction
import GroupStats.Proofs.Core.TermOrder

/-!
# The stream of one shard

Under a group assignment, a shard's stream reads back as `Shard.ftgs`, the shard's FTGS stream
written out. It has each requested field in order. Each field has its terms ascending, each with
its document frequency. Each term has the groups other than 0 of its documents, ascending. Each
such group carries every stat summed, wrapping, over the term's documents in that group. A
term whose documents all lie in group 0 still comes, with no groups.

The stream sums a term's stats batch by batch into totals. It clears only the groups the previous
term touched. `foldl_collectBatch` shows that, whatever the batch size, a term's batches tally
exactly its documents outside group 0. `Tallied` says that clearing then leaves nothing behind.
From there `shows_viewSim` relates the stream to the views of a replay of `Shard.ftgs`. So reading
the stream back gives that stream (`collect_create_eq_ftgs`).
-/

namespace GroupStats

/-! ### The stream written out -/

namespace Lookup

variable (l : Lookup)

/-- The groups of a term's documents other than group 0, each once, ascending. -/
def termGroups (docs : List DocId) : List GroupId :=
  (Merge.distinct ((docs.map l.get).filter (· ≠ noGroup))).mergeSort (· ≤ ·)

/-- The rows of a term: each of its groups with, for each stat, the stat summed over the term's
documents in that group. -/
def termRows (columns : List StatColumn) (docs : List DocId) : List GroupRow :=
  (l.termGroups docs).map fun g =>
    ⟨g, columns.map fun c => ((docs.filter (l.get · = g)).map c.get).sum⟩

/-- A term of a shard with its frequency and rows. -/
def termBlock (columns : List StatColumn) (p : Posting) : TermBlock :=
  ⟨p.term, p.docFreq, l.termRows columns p.docs⟩

end Lookup

/-- The FTGS stream of a shard under a group assignment, written out: for each field asked for,
in order, each term of the field with its frequency and rows. -/
def Shard.ftgs (s : Shard) (l : Lookup) (columns : List StatColumn) (fields : List Field) : Ftgs :=
  fields.map fun f => ⟨f, (s.terms f).entries.map (l.termBlock columns)⟩

/-- In every field the terms ascend, and in every term the groups strictly ascend and none is
group 0. -/
def Ftgs.Ascends (v : Ftgs) : Prop :=
  ∀ f ∈ v, (f.terms.Pairwise fun a b => Term.le a.term b.term) ∧
    ∀ t ∈ f.terms, (t.groups.Pairwise fun a b => a.group < b.group) ∧
      ∀ r ∈ t.groups, r.group ≠ noGroup

namespace Lookup

variable (l : Lookup) (columns : List StatColumn)

theorem ne_noGroup_of_mem_termGroups {docs : List DocId} {g : GroupId}
    (hg : g ∈ l.termGroups docs) : g ≠ noGroup := by
  rw [termGroups, List.mem_mergeSort, Merge.mem_distinct, List.mem_filter] at hg
  simpa using hg.2

/-- A term's groups strictly ascend. -/
theorem termGroups_ascending (docs : List DocId) : (l.termGroups docs).Pairwise (· < ·) :=
  Merge.ascending_mergeSort_distinct _

/-- A term has no groups exactly when all its documents lie in group 0. -/
theorem termRows_eq_nil_iff (docs : List DocId) :
    l.termRows columns docs = [] ↔ ∀ d ∈ docs, l.get d = noGroup := by
  rw [termRows, List.map_eq_nil_iff, termGroups, List.eq_nil_iff_forall_not_mem]
  simp only [List.mem_mergeSort, Merge.mem_distinct, List.mem_filter, List.mem_map]
  constructor
  · intro h d hd
    by_contra hne
    exact h _ ⟨⟨d, hd, rfl⟩, by simpa using hne⟩
  · rintro h g ⟨⟨d, hd, rfl⟩, hg⟩
    simp [h d hd] at hg

theorem length_termRows_le (docs : List DocId) :
    (l.termRows columns docs).length ≤ docs.length := by
  simp only [termRows, termGroups, List.length_map, List.length_mergeSort]
  calc (Merge.distinct _).length ≤ ((docs.map l.get).filter (· ≠ noGroup)).length :=
        Merge.length_distinct_le _
    _ ≤ (docs.map l.get).length := List.length_filter_le _ _
    _ = docs.length := List.length_map ..

end Lookup

/-- The terms of a source built from lists ascend. -/
theorem Postings.ascending_ofLists (pairs : List (Term × List DocId)) :
    (Postings.ofLists pairs).entries.Pairwise fun a b => Term.le a.term b.term :=
  List.pairwise_mergeSort
    (fun a b c hab hbc => by
      simp only [Term.le, bne_iff_ne, ne_eq] at hab hbc ⊢
      exact Term.compare_ne_gt_trans hab hbc)
    (fun a b => by
      cases h : Term.compare a.term b.term <;> simp [Term.le, h, Term.compare_swap a.term b.term])
    _

/-- A shard's stream written out has its terms and groups in order. -/
theorem Shard.ascends_ftgs (s : Shard) (l : Lookup) (columns : List StatColumn)
    (fields : List Field) : (s.ftgs l columns fields).Ascends := by
  intro F hF
  obtain ⟨f, -, rfl⟩ := List.mem_map.mp hF
  refine ⟨List.pairwise_map.mpr (Postings.ascending_ofLists _), fun t ht => ?_⟩
  obtain ⟨q, -, rfl⟩ := List.mem_map.mp ht
  refine ⟨?_, fun r hr => ?_⟩
  · simpa [Lookup.termBlock, Lookup.termRows, List.pairwise_map] using
      l.termGroups_ascending q.docs
  · obtain ⟨g, hg, rfl⟩ := List.mem_map.mp hr
    exact l.ne_noGroup_of_mem_termGroups hg

/-! ### Tallying a term's documents -/

/-- The stats kept documents add to their groups, one row each. -/
def statRows (columns : List StatColumn) (kept : List (DocId × GroupId)) : List GroupRow :=
  kept.map fun p => ⟨p.2, columns.map (·.get p.1)⟩

namespace Lookup

variable (l : Lookup) (columns : List StatColumn)

theorem selected_append (xs ys : List DocId) :
    l.selected (xs ++ ys) = l.selected xs ++ l.selected ys :=
  List.filterMap_append

/-- The groups of the kept documents are the groups other than 0 of the documents. -/
theorem map_snd_selected (docs : List DocId) :
    (l.selected docs).map Prod.snd = (docs.map l.get).filter (· ≠ noGroup) := by
  induction docs with
  | nil => rfl
  | cons d ds ih =>
    by_cases hd : l.get d = noGroup
    · simp [selected, hd] at ih ⊢
      exact ih
    · simp [selected, hd] at ih ⊢
      exact ih

/-- The kept documents of a group other than 0 are the documents of that group. -/
theorem filter_selected {g : GroupId} (hg : g ≠ noGroup) (docs : List DocId) :
    (l.selected docs).filter (·.2 = g) = (docs.filter (l.get · = g)).map fun d => (d, g) := by
  induction docs with
  | nil => rfl
  | cons d ds ih =>
    simp only [selected, List.filterMap_cons] at ih ⊢
    by_cases hd0 : l.get d = noGroup
    · simp [hd0, Ne.symm hg, ih]
    · by_cases hd : l.get d = g
      · subst hd
        simp [hd0, ih]
      · simp [hd0, hd, ih]

/-- A batch keeps its documents outside group 0, records their groups as seen and adds their
stats to their groups' totals. -/
theorem collectBatch_eq (docs : List DocId) (T : Totals) (S : SeenGroups) :
    l.collectBatch docs columns T S =
      (l.selected docs,
        if columns.isEmpty then T
        else (statRows columns (l.selected docs)).foldl (fun t r => t.add r.group r.stats) T,
        ((l.selected docs).map Prod.snd).foldl SeenGroups.insert S) := by
  unfold collectBatch
  dsimp only
  -- the buffers hold just the batch, which is read whole
  generalize hsc : (⟨docs.toArray, Array.replicate docs.length 0⟩ : Scratch) = sc
  have hn : docs.length ≤ sc.docIds.size := by rw [← hsc]; simp
  have hw : docs.length ≤ sc.groups.size := by rw [← hsc]; simp
  have hdocs : sc.docIds.toList.take docs.length = docs := by rw [← hsc]; simp
  obtain ⟨hk, hscratch, hseen, htotals⟩ := l.nextGroupCallback_eq docs.length sc hn hw columns T S
  obtain ⟨hhead, hkept, hgroups⟩ := l.compact_spec sc hn hw
  rw [hdocs] at hk hseen htotals hhead hkept hgroups
  have hsel : (l.selected docs).map Prod.snd = (l.kept docs).map l.get := by
    rw [selected_eq_kept, List.map_map]
    rfl
  rw [hscratch, hk, ← hhead, hkept, hgroups, zip_map_self, ← selected_eq_kept, htotals, hseen,
    hsel, statRows, selected_eq_kept]
  simp only [List.foldl_map]

/-- Tallying a term batch by batch tallies the kept documents of all the batches, in order. -/
theorem foldl_collectBatch {F : Totals × SeenGroups → List DocId → Totals × SeenGroups}
    (hF : ∀ T S ds, F (T, S) ds =
      ((l.collectBatch ds columns T S).2.1, (l.collectBatch ds columns T S).2.2))
    (bs : List (List DocId)) (T : Totals) (S : SeenGroups) :
    bs.foldl F (T, S) =
      (if columns.isEmpty then T
        else (statRows columns (l.selected bs.flatten)).foldl (fun t r => t.add r.group r.stats) T,
        ((l.selected bs.flatten).map Prod.snd).foldl SeenGroups.insert S) := by
  induction bs generalizing T S with
  | nil => simp [selected, statRows]
  | cons b bs ih =>
    rw [List.foldl_cons, hF, collectBatch_eq, ih, List.flatten_cons, selected_append, statRows,
      statRows, statRows, List.map_append, List.map_append]
    by_cases hc : columns.isEmpty
    · simp only [hc, if_true, List.foldl_append]
    · simp only [hc, if_false, Bool.false_eq_true, List.foldl_append]

end Lookup

/-- Adding each document's stats, starting from any values, sums each stat over the documents
on top of its starting value. -/
theorem foldl_add_stats (columns : List StatColumn) (docs : List DocId) (A : StatColumn → Int64) :
    docs.foldl (fun acc d => List.zipWith (· + ·) acc (columns.map (·.get d))) (columns.map A) =
      columns.map fun c => A c + (docs.map c.get).sum := by
  induction docs generalizing A with
  | nil => simp
  | cons d ds ih =>
    rw [List.foldl_cons, List.zipWith_map, List.zipWith_self, ih]
    simp [Int64.add_assoc]

namespace Lookup

variable (l : Lookup) (columns : List StatColumn)

/-- Summed from nothing, the totals of a group other than 0 hold, for each stat, that stat
summed over the documents of the group. -/
theorem row_statRows {g : GroupId} (hg : g ≠ noGroup) (docs : List DocId) :
    ((statRows columns (l.selected docs)).foldl (fun (t : Totals) r => t.add r.group r.stats)
        {}).row g columns.length =
      columns.map fun c => ((docs.filter (l.get · = g)).map c.get).sum := by
  have hwidth : ∀ r ∈ statRows columns (l.selected docs), r.stats.length = columns.length := by
    intro r hr
    obtain ⟨p, -, rfl⟩ := List.mem_map.mp hr
    simp
  -- the rows of the group are those of its documents
  have hgroup : (statRows columns (l.selected docs)).filter (·.group = g) =
      statRows columns ((docs.filter (l.get · = g)).map fun d => (d, g)) := by
    rw [← filter_selected l hg, statRows, statRows, List.filter_map]
    rfl
  rw [Totals.row_foldl_add_empty g hwidth, Merge.statSum, hgroup, statRows, List.map_map,
    List.foldl_map, ← List.map_const']
  exact (foldl_add_stats columns _ fun _ => 0).trans (by simp)

/-- The groups the totals of a term's documents have rows for are groups of the term. -/
theorem mem_termGroups_of_rows (docs : List DocId) {r : GroupId × List Int64}
    (hr : r ∈ ((statRows columns (l.selected docs)).foldl
      (fun (t : Totals) r => t.add r.group r.stats) {}).rows) :
    r.1 ∈ l.termGroups docs := by
  rcases Totals.mem_rows_foldl hr with h | h
  · rw [statRows, List.map_map] at h
    have h' : r.1 ∈ (l.selected docs).map Prod.snd := by simpa using h
    rw [map_snd_selected] at h'
    rw [termGroups, List.mem_mergeSort, Merge.mem_distinct]
    exact h'
  · cases h

end Lookup

/-! ### The stream against its reference -/

namespace ShardStream

variable (s : ShardStream)

/-- The stream written out that a stream walks. -/
def reference : Ftgs := s.shard.ftgs s.lookup s.columns s.fields

/-- A group of the current term with its totals. -/
def row (g : GroupId) : GroupRow := ⟨g, s.totals.row g s.columns.length⟩

/-- Where a stream stands in its reference and what it has left: the field, term and group it
stands on, the groups of the term after that group, the terms of the cursor after its term, and
the fields after the current one. -/
def view : Replay.View where
  field? := if s.fieldPos = 0 then none else s.reference[s.fieldPos - 1]?
  term? := s.posting?.map (s.lookup.termBlock s.columns)
  group? := if s.groupPos = 0 then none else s.groups[s.groupPos - 1]?.map s.row
  groups := (s.groups.drop s.groupPos).map s.row
  terms := (s.cursor.map fun p =>
    (p.entries.drop p.position).map (s.lookup.termBlock s.columns)).getD []
  fields := s.reference.drop s.fieldPos

/-- The tallies hold only the current term's groups: the tracker's marks are its list, and only
the term's groups have totals. Clearing them then leaves nothing behind. -/
structure Tallied : Prop where
  seen : s.seen.Valid
  rows : ∀ r ∈ s.totals.rows, r.1 ∈ s.groups

/-- A stream shows a view when its tallies hold only its term's groups and it stands where the
view does. -/
def Shows (w : Replay.View) : Prop := s.Tallied ∧ s.view = w

variable {s}

@[simp] theorem lookup_resetTerm : s.resetTerm.lookup = s.lookup := rfl

@[simp] theorem columns_resetTerm : s.resetTerm.columns = s.columns := rfl

theorem resetTerm_totals (h : s.Tallied) : s.resetTerm.totals = {} :=
  Totals.reset_of_rows _ h.rows

theorem resetTerm_seen (h : s.Tallied) : s.resetTerm.seen = SeenGroups.empty s.seen.capacity :=
  SeenGroups.clear_eq h.seen

theorem Tallied.resetTerm (h : s.Tallied) : s.resetTerm.Tallied where
  seen := by
    rw [resetTerm_seen h]
    exact SeenGroups.valid_empty _
  rows r hr := by
    rw [resetTerm_totals h] at hr
    cases hr

/-- Forgetting the term shows no term, no group and no groups left, and leaves the rest. -/
theorem view_resetTerm (s : ShardStream) :
    s.resetTerm.view = { s.view with term? := none, group? := none, groups := [] } :=
  rfl

/-! ### Tallying a term -/

section Accumulate

variable {q : Posting} {k : Nat}

/-- Tallying a term from clear tallies reads all its documents, whatever the batch size, and
lists its groups. -/
theorem accumulate_eq (hq : s.cursor.bind (·.current?) = some q) (ht : s.totals = {})
    (hs : s.seen = SeenGroups.empty k) (hg : s.groups = []) :
    s.accumulate = { s with
      totals := if s.columns.isEmpty then {}
        else (statRows s.columns (s.lookup.selected q.docs)).foldl
          (fun (t : Totals) r => t.add r.group r.stats) {},
      seen := (((s.lookup.selected q.docs).map Prod.snd).foldl SeenGroups.insert
        (SeenGroups.empty k)).sort,
      groups := s.lookup.termGroups q.docs } := by
  unfold accumulate
  simp only [hq]
  rw [Lookup.foldl_collectBatch s.lookup s.columns, flatten_chunks, ht, hs, hg, List.nil_append]
  · congr
    dsimp only
    rw [(SeenGroups.foldl_insert_empty k _).2.2, Lookup.map_snd_selected]
    rfl
  · intro T S ds
    rfl

variable (hq : s.cursor.bind (·.current?) = some q) (ht : s.totals = {})
  (hs : s.seen = SeenGroups.empty k) (hg : s.groups = [])
include hq ht hs hg

theorem Tallied.accumulate : s.accumulate.Tallied where
  seen := by
    rw [accumulate_eq hq ht hs hg]
    exact (SeenGroups.foldl_insert_empty k _).1.sort
  rows r hr := by
    rw [accumulate_eq hq ht hs hg] at hr ⊢
    dsimp only at hr ⊢
    split at hr
    · cases hr
    · exact Lookup.mem_termGroups_of_rows _ _ _ hr

/-- Tallied from clear tallies, a term's groups with their totals are its rows. -/
theorem map_row_accumulate :
    s.accumulate.groups.map s.accumulate.row = s.lookup.termRows s.columns q.docs := by
  rw [accumulate_eq hq ht hs hg]
  simp only [Lookup.termRows]
  refine List.map_congr_left fun g hmem => ?_
  rw [row]
  congr 1
  dsimp only
  split
  · -- no stats: every row is empty
    rename_i hc
    rw [List.isEmpty_iff.mp hc]
    rfl
  · exact Lookup.row_statRows _ _ (Lookup.ne_noGroup_of_mem_termGroups _ hmem) _

omit hq ht hs hg in
/-- Tallying changes only the groups shown and left. -/
theorem view_tally (T : Totals) (S : SeenGroups) (G : List GroupId) :
    { s with totals := T, seen := S, groups := G }.view =
      { s.view with
        group? := if s.groupPos = 0 then none
          else G[s.groupPos - 1]?.map { s with totals := T, seen := S, groups := G }.row,
        groups := (G.drop s.groupPos).map { s with totals := T, seen := S, groups := G }.row } :=
  rfl

/-- Tallied at the start of a term, the term shows its rows as the groups left. -/
theorem view_accumulate (hp : s.groupPos = 0) :
    s.accumulate.view =
      { s.view with group? := none, groups := s.lookup.termRows s.columns q.docs } := by
  have hrows := map_row_accumulate hq ht hs hg
  rw [accumulate_eq hq ht hs hg] at hrows ⊢
  dsimp only at hrows
  have hdrop : (s.lookup.termGroups q.docs).drop s.groupPos = s.lookup.termGroups q.docs := by
    rw [hp, List.drop_zero]
  rw [view_tally, if_pos hp, hdrop, hrows]

end Accumulate

/-! ### Advancing -/

theorem nextGroup_apply (s : ShardStream) : nextGroup.apply s =
    if s.groups.length ≤ s.groupPos then (.ok false, { s with groupPos := s.groups.length + 1 })
    else (.ok true, { s with groupPos := s.groupPos + 1 }) := by
  by_cases h : s.groups.length ≤ s.groupPos <;> simp [nextGroup, h]

theorem nextField_apply (s : ShardStream) : nextField.apply s =
    if s.fields.length ≤ s.fieldPos then
      (.ok false, { s.resetTerm with cursor := none, fieldPos := s.fields.length + 1 })
    else (.ok true, { s.resetTerm with
      cursor := some (s.shard.terms (s.fields.getD s.fieldPos (Field.int ""))),
      fieldPos := s.fieldPos + 1 }) := by
  by_cases h : s.fields.length ≤ s.fieldPos <;> simp [nextField, h, resetTerm]

theorem nextTerm_apply (s : ShardStream) : nextTerm.apply s =
    match s.cursor with
    | none => (.ok false, s.resetTerm)
    | some p =>
      if p.entries.length ≤ p.position then
        (.ok false,
          { s.resetTerm with cursor := some { p with position := p.entries.length + 1 } })
      else
        (.ok true, { s.resetTerm with
          cursor := some { p with position := p.position + 1, docCursor := 0 },
          onTerm := true }.accumulate) := by
  cases hc : s.cursor with
  | none => simp [nextTerm, hc, resetTerm]
  | some p =>
    by_cases hp : p.entries.length ≤ p.position <;>
      simp [nextTerm, hc, hp, resetTerm, Postings.next]

/-! ### Advancing as the reference does -/

section Views

variable {w : Replay.View}

/-- Moving within a term changes only the group shown and the groups left. -/
theorem view_setGroupPos (k : Nat) : { s with groupPos := k }.view =
    { s.view with group? := if k = 0 then none else s.groups[k - 1]?.map s.row,
                  groups := (s.groups.drop k).map s.row } :=
  rfl

theorem Shows.nextGroup_cons (h : s.Shows w) {g : GroupRow} {gs : List GroupRow}
    (hw : w.groups = g :: gs) :
    ∃ s', nextGroup.apply s = (.ok true, s') ∧
      s'.Shows { w with group? := some g, groups := gs } := by
  obtain ⟨ht, rfl⟩ := h
  obtain ⟨hn, hg, hgs⟩ := Replay.drop_eq_cons
    (show (s.groups.map s.row).drop s.groupPos = g :: gs by rw [← List.map_drop]; exact hw)
  have hn' : s.groupPos < s.groups.length := by simpa using hn
  refine ⟨{ s with groupPos := s.groupPos + 1 }, by simp [nextGroup_apply, Nat.not_le.mpr hn'],
    ⟨ht.seen, ht.rows⟩, ?_⟩
  rw [view_setGroupPos, if_neg (Nat.succ_ne_zero _), Nat.add_sub_cancel,
    List.getElem?_eq_getElem hn', ← hg, ← hgs, List.map_drop]
  simp

theorem Shows.nextGroup_nil (h : s.Shows w) (hw : w.groups = []) :
    ∃ s', nextGroup.apply s = (.ok false, s') ∧
      s'.Shows { w with group? := none, groups := [] } := by
  obtain ⟨ht, rfl⟩ := h
  have hend : s.groups.length ≤ s.groupPos := by simpa [view] using hw
  refine ⟨{ s with groupPos := s.groups.length + 1 }, by simp [nextGroup_apply, hend],
    ⟨ht.seen, ht.rows⟩, ?_⟩
  rw [view_setGroupPos, if_neg (Nat.succ_ne_zero _), Nat.add_sub_cancel,
    List.getElem?_eq_none (Nat.le_refl _), List.drop_eq_nil_of_le (Nat.le_succ _)]
  rfl

@[simp] theorem length_reference : s.reference.length = s.fields.length := by
  simp [reference, Shard.ftgs]

/-- Moving to a field forgets the term and shows the field with the cursor's terms left. -/
theorem view_moveField (c : Option Postings) (k : Nat) :
    { s.resetTerm with cursor := c, fieldPos := k }.view =
      ⟨if k = 0 then none else s.reference[k - 1]?, none, none, [],
        (c.map fun p => (p.entries.drop p.position).map (s.lookup.termBlock s.columns)).getD [],
        s.reference.drop k⟩ :=
  rfl

theorem Shows.nextField_cons (h : s.Shows w) {f : FieldBlock} {fs : Ftgs}
    (hw : w.fields = f :: fs) :
    ∃ s', nextField.apply s = (.ok true, s') ∧
      s'.Shows ⟨some f, none, none, [], f.terms, fs⟩ := by
  obtain ⟨ht, rfl⟩ := h
  obtain ⟨hn, hf, hfs⟩ :=
    Replay.drop_eq_cons (show s.reference.drop s.fieldPos = f :: fs from hw)
  have hn' : s.fieldPos < s.fields.length := by simpa using hn
  -- the field moved to is the next one asked for, with all the shard's terms of it
  have hfk : f = ⟨s.fields[s.fieldPos], (s.shard.terms s.fields[s.fieldPos]).entries.map
      (s.lookup.termBlock s.columns)⟩ := by
    rw [← hf]
    simp [reference, Shard.ftgs]
  refine ⟨_, (nextField_apply s).trans (if_neg (Nat.not_le.mpr hn')),
    ⟨ht.resetTerm.seen, ht.resetTerm.rows⟩, ?_⟩
  rw [view_moveField, if_neg (Nat.succ_ne_zero _), Nat.add_sub_cancel,
    List.getElem?_eq_getElem hn, hf, hfs, hfk]
  simp [List.getD_eq_getElem?_getD, List.getElem?_eq_getElem hn', Shard.terms, Postings.ofLists]

theorem Shows.nextField_nil (h : s.Shows w) (hw : w.fields = []) :
    ∃ s', nextField.apply s = (.ok false, s') ∧
      s'.Shows ⟨none, none, none, [], [], []⟩ := by
  obtain ⟨ht, rfl⟩ := h
  have hend : s.fields.length ≤ s.fieldPos := by
    simpa using List.drop_eq_nil_iff.mp (show s.reference.drop s.fieldPos = [] from hw)
  refine ⟨_, (nextField_apply s).trans (if_pos hend),
    ⟨ht.resetTerm.seen, ht.resetTerm.rows⟩, ?_⟩
  rw [view_moveField, if_neg (Nat.succ_ne_zero _), Nat.add_sub_cancel,
    List.getElem?_eq_none (by simp), List.drop_eq_nil_of_le (by simp)]
  rfl

/-- Moving the cursor forgets the term and shows the cursor's terms left. -/
theorem view_resetCursor (c : Option Postings) :
    { s.resetTerm with cursor := c }.view =
      { s.view with
        term? := none, group? := none, groups := [],
        terms := (c.map fun p =>
          (p.entries.drop p.position).map (s.lookup.termBlock s.columns)).getD [] } :=
  rfl

/-- Moving the cursor onto a term shows it, before its groups are tallied. -/
theorem view_startTerm (p : Postings) :
    { s.resetTerm with cursor := some p, onTerm := true }.view =
      { s.view with
        term? := p.current?.map (s.lookup.termBlock s.columns), group? := none, groups := [],
        terms := (p.entries.drop p.position).map (s.lookup.termBlock s.columns) } :=
  rfl

theorem Shows.nextTerm_cons (h : s.Shows w) {t : TermBlock} {ts : List TermBlock}
    (hw : w.terms = t :: ts) :
    ∃ s', nextTerm.apply s = (.ok true, s') ∧
      s'.Shows { w with term? := some t, group? := none, groups := t.groups, terms := ts } := by
  obtain ⟨ht, rfl⟩ := h
  cases hc : s.cursor with
  | none => simp [view, hc] at hw
  | some p =>
    have hw' : (p.entries.map (s.lookup.termBlock s.columns)).drop p.position = t :: ts := by
      rw [← List.map_drop]
      simpa [view, hc] using hw
    obtain ⟨hn, htq, hts⟩ := Replay.drop_eq_cons hw'
    have hn' : p.position < p.entries.length := by simpa using hn
    have happly := nextTerm_apply s
    simp only [hc, if_neg (Nat.not_le.mpr hn')] at happly
    -- the term moved to, before its documents are tallied
    have hq : ({ s.resetTerm with
        cursor := some { p with position := p.position + 1, docCursor := 0 },
        onTerm := true } : ShardStream).cursor.bind (·.current?) =
          some p.entries[p.position] := by
      simp [Postings.current?, List.getElem?_eq_getElem hn']
    have h0t := resetTerm_totals ht
    have h0s := resetTerm_seen ht
    refine ⟨_, happly, Tallied.accumulate hq h0t h0s rfl, ?_⟩
    rw [view_accumulate hq h0t h0s rfl rfl, view_startTerm, ← htq, ← hts, List.map_drop]
    simp [Postings.current?, List.getElem?_eq_getElem hn', Lookup.termBlock]

theorem Shows.nextTerm_nil (h : s.Shows w) (hw : w.terms = []) :
    ∃ s', nextTerm.apply s = (.ok false, s') ∧
      s'.Shows { w with term? := none, group? := none, groups := [], terms := [] } := by
  obtain ⟨ht, rfl⟩ := h
  cases hc : s.cursor with
  | none =>
    refine ⟨s.resetTerm, by rw [nextTerm_apply, hc], ht.resetTerm, ?_⟩
    rw [view_resetTerm, ← hw]
  | some p =>
    have hend : p.entries.length ≤ p.position := by
      have : (p.entries.drop p.position).map (s.lookup.termBlock s.columns) = [] := by
        simpa [view, hc] using hw
      simpa using this
    have happly := nextTerm_apply s
    simp only [hc, if_pos hend] at happly
    refine ⟨_, happly, ⟨ht.resetTerm.seen, ht.resetTerm.rows⟩, ?_⟩
    rw [view_resetCursor]
    simp

/-- What the stream shows is what the view it is related to stands on. -/
theorem Shows.field (h : s.Shows w) {f : FieldBlock} (hf : w.field? = some f) :
    Cursor.field s = f.field := by
  obtain ⟨-, rfl⟩ := h
  have h0 : s.fieldPos ≠ 0 := by
    rintro h0
    simp [view, h0] at hf
  have hf' : s.reference[s.fieldPos - 1]? = some f := by simpa [view, h0] using hf
  rw [reference, Shard.ftgs, List.getElem?_map] at hf'
  obtain ⟨F, hF, rfl⟩ := Option.map_eq_some_iff.mp hf'
  show s.fields.getD (s.fieldPos - 1) (Field.int "") = F
  simp [List.getD_eq_getElem?_getD, hF]

theorem Shows.term (h : s.Shows w) {t : TermBlock} (ht : w.term? = some t) :
    Cursor.term s = t.term ∧ Cursor.docFreq s = t.docFreq := by
  obtain ⟨-, rfl⟩ := h
  obtain ⟨q, hq, rfl⟩ := Option.map_eq_some_iff.mp (show s.posting?.map _ = some t from ht)
  show ((s.posting?).map (·.term)).getD (.int 0) = q.term ∧
    ((s.posting?).map (·.docFreq)).getD 0 = q.docFreq
  rw [hq]
  exact ⟨rfl, rfl⟩

theorem Shows.group (h : s.Shows w) {g : GroupRow} (hg : w.group? = some g) :
    Cursor.group s = g.group ∧ Cursor.stats s = g.stats := by
  obtain ⟨-, rfl⟩ := h
  have h0 : s.groupPos ≠ 0 := by
    rintro h0
    simp [view, h0] at hg
  have hg' : s.groups[s.groupPos - 1]?.map s.row = some g := by simpa [view, h0] using hg
  obtain ⟨G, hG, rfl⟩ := Option.map_eq_some_iff.mp hg'
  have hgroup : group s = G := by simp [group, List.getD_eq_getElem?_getD, hG]
  show group s = G ∧ s.totals.row (group s) s.columns.length = (s.row G).stats
  rw [hgroup]
  exact ⟨rfl, rfl⟩

/-- A shard's stream moves as the views of a replay of its stream written out. -/
theorem shows_viewSim : Replay.ViewSim Shows where
  nextField_cons h hw := h.nextField_cons hw
  nextField_nil h hw := h.nextField_nil hw
  nextTerm_cons h _ hw := h.nextTerm_cons hw
  nextTerm_nil h hw := h.nextTerm_nil hw
  nextGroup_cons h hw := h.nextGroup_cons hw
  nextGroup_nil h hw := h.nextGroup_nil hw
  field h hf := h.field hf
  term h ht := h.term ht
  group h hg := h.group hg

end Views

/-! ### Reading the stream back -/

/-- A term adds one to the size of an inverted list and each of its documents one more; the list
has no more terms, and no term more documents, than its size. -/
theorem foldl_size_bounds :
    ∀ (ls : TermLists) (n : Nat), n + ls.length ≤ ls.foldl (fun n p => n + 1 + p.2.length) n ∧
      ∀ p ∈ ls, n + p.2.length ≤ ls.foldl (fun n p => n + 1 + p.2.length) n
  | [], n => by simp
  | p :: ps, n => by
    obtain ⟨hlen, hmem⟩ := foldl_size_bounds ps (n + 1 + p.2.length)
    rw [List.foldl_cons, List.length_cons]
    refine ⟨by omega, fun p' hp' => ?_⟩
    rcases List.mem_cons.mp hp' with rfl | hp'
    · omega
    · have := hmem p' hp'
      omega

/-- A stream's budget bounds every level of its reference: its fields, the terms of a field and
the groups of a term. -/
theorem bounded_reference (s : ShardStream) : s.reference.Bounded s.budget := by
  let size : Field → Nat := fun f => (s.shard.lists f).foldl (fun n p => n + 1 + p.2.length) 0
  have hbudget : s.budget = s.fields.length + s.groups.length + (s.fields.map size).sum := rfl
  have hsize : ∀ f ∈ s.fields, size f ≤ s.budget := fun f hf => by
    have := List.le_sum_of_mem (List.mem_map_of_mem (f := size) hf)
    omega
  refine ⟨by simp [reference, Shard.ftgs]; omega, fun F hF => ?_⟩
  obtain ⟨f, hf, rfl⟩ := List.mem_map.mp hF
  obtain ⟨hlen, hmem⟩ := foldl_size_bounds (s.shard.lists f) 0
  have hf' : (s.shard.lists f).foldl (fun n p => n + 1 + p.2.length) 0 ≤ s.budget := hsize f hf
  refine ⟨?_, fun t ht => ?_⟩
  · have hterms : (s.shard.terms f).entries.length = (s.shard.lists f).length := by
      simp [Shard.terms, Postings.ofLists, Postings.sortByTerm]
    rw [List.length_map, hterms]
    omega
  · -- a term's groups are at most its documents, which its field's size counts
    obtain ⟨q, hq, rfl⟩ := List.mem_map.mp ht
    simp only [Shard.terms, Postings.ofLists, Postings.sortByTerm, List.mem_mergeSort,
      List.mem_map] at hq
    obtain ⟨p, hp, rfl⟩ := hq
    have hdocs := hmem p hp
    have hrows := s.lookup.length_termRows_le s.columns p.2
    show (s.lookup.termRows s.columns p.2).length ≤ s.budget
    omega

/-- Reading a shard's stream from its start gives the shard's stream written out, whatever the
batch size, and that stream has its terms ascending in every field and its groups strictly
ascending, never group 0, in every term. -/
theorem collect_create_eq_ftgs (shard : Shard) (l : Lookup) (columns : List StatColumn)
    (fields : List Field) (batch : Nat) (claimed : UInt64) :
    (Cursor.collect.apply (create shard l columns fields batch claimed)).1 =
        .ok (shard.ftgs l columns fields) ∧
      (shard.ftgs l columns fields).Ascends := by
  refine ⟨?_, shard.ascends_ftgs l columns fields⟩
  let c := create shard l columns fields batch claimed
  -- the fresh stream stands at the start of its reference, with nothing tallied
  have hstart : c.Shows ({ blocks := c.reference, numStats := columns.length, numGroups := 0 } :
      Replay).view := by
    rw [Replay.view_start]
    exact ⟨⟨SeenGroups.valid_empty _, fun r hr => nomatch hr⟩, rfl⟩
  obtain ⟨r', hr'⟩ := Replay.collectFields_start (bounded_reference c) (Nat.lt_succ_self _)
    columns.length 0
  have hagree :=
    shows_viewSim.simulation.collectFields_agree (c.budget + 1) (c.budget + 1) c _ hstart
  simp only [Cursor.collect, Step.apply_bind, Step.apply_get]
  exact hagree.1.trans (congrArg Prod.fst hr')

end ShardStream

end GroupStats
