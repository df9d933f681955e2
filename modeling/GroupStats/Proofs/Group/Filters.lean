import GroupStats.Proofs.Group.Bucketing
import GroupStats.Proofs.Group.MultiSplit

/-!
# Stat filters and renames by their definition

A stat filter keeps a document outside group 0 exactly when whether its value lies in `[min, max]`
differs from the filter's negation, and drops it to group 0 otherwise (`filtered`). A stat split
of a target group other than 0 sends the target's documents with a value in range to its positive
group and the others to its negative group (`rangeSplit`). A rename sends each group other than 0
to the destination paired with the first source equal to it, and a group no source names to group
0 when filtering and nowhere otherwise (`renamed`). `Lookup.moved` writes such a definition out:
the lookup that moves every document by its own id and group, its bound recalculated.

The filters walk the documents in batches (`remapByStat_eq`); the rename visits them in order and
reads each one's group just before writing it (`sweep_recalculate`). Either way every document is
moved from the group it held before the call, so a rename is one simultaneous substitution and
never chains a destination through a later pair. On a bounded lookup of at most `2 ^ 32`
documents, with a stat covering it, each call computes its definition whatever the batch size and
leaves the bound one past the largest group. A call with an empty range, a destination at or past
`maxNumGroups`, or sources and destinations of different lengths is refused as an invalid
argument, and a session that serves a refused call is left as it was.
-/

namespace GroupStats

namespace Lookup

/-! ### Moving every document by its id and group -/

/-- The lookup that sends each document `d` of group `g` to `D d g`, its bound recalculated. -/
def moved (l : Lookup) (D : DocId → GroupId → GroupId) : Lookup :=
  ofGroups (l.groups.mapIdx fun i g => D i.toUInt32 g)

section Moved

variable {l l' : Lookup} {D : DocId → GroupId → GroupId}

@[simp] theorem size_moved : (l.moved D).size = l.size := by
  simp [moved, ofGroups, recalculate, size]

theorem get_moved {d : DocId} (hd : d.toNat < l.size) : (l.moved D).get d = D d (l.get d) := by
  have hd' : d.toNat < l.groups.size := hd
  simp [moved, ofGroups, recalculate, get, Array.getD_eq_getD_getElem?, hd']

/-- A lookup that moved each document of `l` by `D`, once recalculated, is `l.moved D`. -/
theorem recalculate_eq_moved (hsize : l.size ≤ 2 ^ 32) (hsz : l'.size = l.size)
    (hget : ∀ d : DocId, d.toNat < l.size → l'.get d = D d (l.get d)) :
    l'.recalculate = l.moved D := by
  simp only [moved, ofGroups, recalculate, groups_eq_mapIdx hsize hsz hget]

/-- A move that keeps each group of a bounded lookup or lands below `maxNumGroups` leaves the
bound one past the largest group. -/
theorem Bounded.moved_exact (hl : l.Bounded) (hD : ∀ d, ∀ g ∈ l.groups, Settles g (D d g)) :
    (l.moved D).Exact := by
  apply recalculate_exact
  intro g hg
  obtain ⟨i, hi, rfl⟩ := Array.mem_mapIdx.mp hg
  have hmem : l.groups[i] ∈ l.groups := Array.getElem_mem hi
  rcases hD i.toUInt32 _ hmem with h | h
  · rw [h]
    exact hl.ne_lastGroup hmem
  · exact ne_lastGroup_of_lt h

/-- Writing a document's own group back changes no group. -/
theorem groups_set_get (d : DocId) : (l.set d (l.get d)).groups = l.groups := by
  rw [groups_set]
  by_cases hd : d.toNat < l.groups.size
  · simp only [get, Array.getD_eq_getD_getElem?, Array.getElem?_eq_getElem hd, Option.getD_some]
    rw [Array.setIfInBounds, dif_pos hd]
    exact Array.set_getElem_self hd
  · exact Array.setIfInBounds_eq_of_size_le (Nat.le_of_not_lt hd)

/-- A sweep that writes every document once, in order, from its id and group, is once
recalculated the move its writes make. -/
theorem sweep_recalculate {F : Lookup → Nat → Lookup} (W : Nat → GroupId → GroupId)
    (hF : ∀ l' i, (F l' i).groups = (l'.set i.toUInt32 (W i (l'.get i.toUInt32))).groups)
    (hsize : l.size ≤ 2 ^ 32)
    (hW : ∀ d : DocId, d.toNat < l.size → W d.toNat (l.get d) = D d (l.get d)) :
    ((List.range l.size).foldl F l).recalculate = l.moved D := by
  obtain ⟨hsz, hget⟩ := sweep_write hF hsize l.size (Nat.le_refl _)
  refine recalculate_eq_moved hsize hsz fun d hd => ?_
  rw [hget d hd, if_pos hd, hW d hd]

/-- A stat walk over a stat covering the lookup, once recalculated, moves each document by its
own group and value, group 0 staying. -/
theorem remapByStat_recalculate (hsize : l.size ≤ 2 ^ 32) {stat : StatColumn}
    (hcover : l.size ≤ stat.numDocs) (batch : Nat) (move : GroupId → Int64 → GroupId) :
    ∃ l', l.remapByStat stat batch move = .ok l' ∧
      l'.recalculate = l.moved fun d g => if g = noGroup then noGroup else move g (stat.get d) := by
  obtain ⟨l', hw, hsz, hget⟩ := remapByStat_eq hsize hcover batch move
  exact ⟨l', hw, recalculate_eq_moved hsize hsz hget⟩

end Moved

/-! ### Stat filters -/

/-- Where a stat filter sends a document of group `g` with value `v`: group 0 stays, and another
group is dropped to group 0 exactly when whether `v` lies in `[lo, hi]` is `negate`. -/
def filtered (lo hi : Int64) (negate : Bool) (g : GroupId) (v : Int64) : GroupId :=
  if g = noGroup ∨ ((lo ≤ v ∧ v ≤ hi) ↔ negate = true) then noGroup else g

/-- Where a stat split of target `t` sends a document of group `g` with value `v`: when `t` is not
group 0, a document of `t` goes to `p` with a value in `[lo, hi]` and to `n` otherwise; every
other document stays. -/
def rangeSplit (lo hi : Int64) (t n p g : GroupId) (v : Int64) : GroupId :=
  if g = t ∧ t ≠ noGroup then (if lo ≤ v ∧ v ≤ hi then p else n) else g

section Stat

variable {l : Lookup} {stat : StatColumn} {batch : Nat} {lo hi : Int64}

theorem filtered_settles (negate : Bool) (g : GroupId) (v : Int64) :
    Settles g (filtered lo hi negate g v) := by
  unfold filtered
  split
  · exact .inr (by decide)
  · exact .inl rfl

theorem rangeSplit_settles {t n p : GroupId} (hn : n < maxNumGroups) (hp : p < maxNumGroups)
    (g : GroupId) (v : Int64) : Settles g (rangeSplit lo hi t n p g v) := by
  unfold rangeSplit
  split
  · split
    · exact .inr hp
    · exact .inr hn
  · exact .inl rfl

/-- A stat filter refuses an empty range; otherwise, over a stat covering the lookup, it drops to
group 0 exactly the documents outside group 0 whose value's place in the range is `negate`. -/
theorem metricFilter_eq (hsize : l.size ≤ 2 ^ 32) (hcover : l.size ≤ stat.numDocs) (batch : Nat)
    (lo hi : Int64) (negate : Bool) :
    l.metricFilter stat batch lo hi negate =
      if hi < lo then .error (.invalidArgument (.filterRange lo hi))
      else .ok (l.moved fun d g => filtered lo hi negate g (stat.get d)) := by
  by_cases hr : hi < lo
  · simp only [metricFilter, hr, if_true]
    rfl
  · obtain ⟨l', hw, hrec⟩ := remapByStat_recalculate hsize hcover batch fun g v =>
      if (lo ≤ v && v ≤ hi) != negate then g else noGroup
    simp only [metricFilter, hr, if_false, hw, bind, Except.bind, pure, Except.pure, hrec]
    -- the walk keeps group 0 and applies the filter's test to the rest
    congr 3
    funext d g
    by_cases hg : g = noGroup
    · simp [filtered, hg]
    · by_cases h₁ : lo ≤ stat.get d <;> by_cases h₂ : stat.get d ≤ hi <;> cases negate <;>
        simp [filtered, hg, h₁, h₂]

/-- A stat split with a range and two groups below `maxNumGroups` sends, over a stat covering the
lookup, the documents of its target other than group 0 by their values, and leaves the rest. -/
theorem targetedMetricFilter_eq (hsize : l.size ≤ 2 ^ 32) (hcover : l.size ≤ stat.numDocs)
    (batch : Nat) {t n p : GroupId} (hr : ¬ hi < lo) (hn : n < maxNumGroups)
    (hp : p < maxNumGroups) :
    l.targetedMetricFilter stat batch lo hi t n p =
      .ok (l.moved fun d g => rangeSplit lo hi t n p g (stat.get d)) := by
  have hc : checkGroups [n, p] = .ok () := checkGroups_eq_ok.mpr (by simp [hn, hp])
  obtain ⟨l', hw, hrec⟩ := remapByStat_recalculate hsize hcover batch fun g v =>
    if g ≠ t then g else if lo ≤ v && v ≤ hi then p else n
  simp only [targetedMetricFilter, hr, if_false, hc, hw, bind, Except.bind, pure, Except.pure,
    hrec]
  -- group 0 is skipped before the target is compared, so a target of 0 moves nothing
  congr 3
  funext d g
  by_cases hg : g = noGroup
  · subst hg
    by_cases ht : noGroup = t <;> simp [rangeSplit, ht]
  · by_cases hgt : g = t
    · subst hgt
      simp [rangeSplit, hg]
    · simp [rangeSplit, hg, hgt]

/-- A stat split with an empty range or a group at or past `maxNumGroups` is refused. -/
theorem targetedMetricFilter_refused {t n p : GroupId}
    (h : hi < lo ∨ maxNumGroups ≤ n ∨ maxNumGroups ≤ p) :
    ∃ fault, l.targetedMetricFilter stat batch lo hi t n p = .error (.invalidArgument fault) := by
  by_cases hr : hi < lo
  · exact ⟨.filterRange lo hi, by simp only [targetedMetricFilter, hr, if_true]; rfl⟩
  · obtain ⟨g, hc⟩ := RuleTable.checkGroups_refused [n, p]
      (by rcases h.resolve_left hr with h | h <;> simp [h])
    exact ⟨.groupTooLarge g, by simp [targetedMetricFilter, hr, hc, bind, Except.bind]⟩

end Stat

/-! ### Renames -/

/-- Where a rename sends a group `g`: group 0 stays; another group goes to the destination paired
with the first source equal to it, and when no source is, to group 0 with `filter` and nowhere
otherwise. -/
def renamed (sources destinations : List GroupId) (filter : Bool) (g : GroupId) : GroupId :=
  if g = noGroup then noGroup
  else ((sources.zip destinations).find? (·.1 == g)).elim (if filter then noGroup else g) (·.2)

section Rename

variable {l : Lookup} {sources destinations : List GroupId} {filter : Bool}

theorem renamed_settles (hdst : ∀ g ∈ destinations, g < maxNumGroups) (g : GroupId) :
    Settles g (renamed sources destinations filter g) := by
  unfold renamed
  split
  · exact .inr (by decide)
  · cases hf : (sources.zip destinations).find? (·.1 == g) with
    | none =>
      cases filter
      · exact .inl (by simp)
      · exact .inr (by simp only [Option.elim, if_true]; decide)
    | some q => exact .inr (hdst q.2 (List.of_mem_zip (List.mem_of_find?_eq_some hf)).2)

/-- The pairs a rename keeps, those whose source lies below the bound, name every group below the
bound as the whole list does. -/
theorem find?_kept_pairs {n g : GroupId} (hg : g < n) :
    ((sources.zip destinations).filter fun q => decide (q.1 < n)).find? (·.1 == g) =
      (sources.zip destinations).find? (·.1 == g) := by
  rw [List.find?_filter]
  congr 1
  funext q
  by_cases hq : q.1 = g
  · simp [hq, hg]
  · simp [hq]

/-- A rename with as many sources as destinations, all below `maxNumGroups`, moves every document
of a bounded lookup from the group it held before: one simultaneous substitution. -/
theorem remap_eq (hl : l.Bounded) (hsize : l.size ≤ 2 ^ 32)
    (hlen : sources.length = destinations.length) (hdst : ∀ g ∈ destinations, g < maxNumGroups) :
    l.remap sources destinations filter = .ok (l.moved fun _ g => renamed sources destinations filter g) := by
  unfold remap
  rw [if_neg (by simpa using hlen)]
  simp only [checkGroups_eq_ok.mpr hdst, bind, Except.bind, pure, Except.pure, Except.ok.injEq]
  refine sweep_recalculate (fun _ g => if g = noGroup then g else
    ((((sources.zip destinations).filter fun q => decide (q.1 < l.numGroups)).find? (·.1 == g)).elim
      (if filter then noGroup else g) (·.2))) ?_ hsize ?_
  · -- each step writes the document it visits, or leaves it where it is
    intro l' i
    split
    · rw [groups_set_get]
    · split
      · rename_i src dst hfind
        simp [hfind]
      · rename_i hfind
        cases filter
        · simp only [hfind, Option.elim, Bool.false_eq_true, if_false]
          exact (groups_set_get _).symm
        · simp [hfind]
  · -- a document's group lies below the bound, where the kept pairs are all the pairs
    intro d hd
    have hlt : l.get d < l.numGroups := hl.lt _ (get_mem hd)
    simp only [renamed, find?_kept_pairs hlt]
    by_cases h0 : l.get d = noGroup
    · rw [if_pos h0, if_pos h0, h0]
    · rw [if_neg h0, if_neg h0]

/-- A rename with sources and destinations of different lengths, or a destination at or past
`maxNumGroups`, is refused. -/
theorem remap_refused
    (h : sources.length ≠ destinations.length ∨ ∃ g ∈ destinations, maxNumGroups ≤ g) :
    ∃ fault, l.remap sources destinations filter = .error (.invalidArgument fault) := by
  by_cases hlen : sources.length = destinations.length
  · obtain ⟨g, hc⟩ :=
      RuleTable.checkGroups_refused destinations (h.resolve_left (by simpa using hlen))
    exact ⟨.groupTooLarge g, by simp [remap, hlen, hc, bind, Except.bind]⟩
  · exact ⟨.remapLengths sources.length destinations.length,
      by simp only [remap, ne_eq, hlen, not_false_eq_true, if_true]; rfl⟩

end Rename

/-! ### The filters and renames together -/

/-- Stat filters, stat splits and renames meet their definitions whatever the batch size: a filter
drops to group 0 the documents on the refused side of its range, a stat split sends its target by
whether the value lies in the range, and a rename sends each group by its first pairing. Invalid
arguments are refused, leaving an open session and its pool as they were. -/
theorem stat_filters_and_renames_exact (l : Lookup) (stat : StatColumn) (batch : Nat)
    (hl : l.Bounded) (hsize : l.size ≤ 2 ^ 32) (hcover : l.size ≤ stat.numDocs) :
    (∀ lo hi negate, l.metricFilter stat batch lo hi negate =
        (if hi < lo then .error (.invalidArgument (.filterRange lo hi))
          else .ok (l.moved fun d g => filtered lo hi negate g (stat.get d))) ∧
      (l.moved fun d g => filtered lo hi negate g (stat.get d)).Exact) ∧
    (∀ lo hi t n p, ¬ hi < lo → n < maxNumGroups → p < maxNumGroups →
      l.targetedMetricFilter stat batch lo hi t n p =
          .ok (l.moved fun d g => rangeSplit lo hi t n p g (stat.get d)) ∧
        (l.moved fun d g => rangeSplit lo hi t n p g (stat.get d)).Exact) ∧
    (∀ lo hi t n p, hi < lo ∨ maxNumGroups ≤ n ∨ maxNumGroups ≤ p →
      ∃ fault, l.targetedMetricFilter stat batch lo hi t n p = .error (.invalidArgument fault)) ∧
    (∀ sources destinations filter, sources.length = destinations.length →
      (∀ g ∈ destinations, g < maxNumGroups) →
      l.remap sources destinations filter =
          .ok (l.moved fun _ g => renamed sources destinations filter g) ∧
        (l.moved fun _ g => renamed sources destinations filter g).Exact) ∧
    (∀ sources destinations filter,
      sources.length ≠ destinations.length ∨ (∃ g ∈ destinations, maxNumGroups ≤ g) →
      ∃ fault, l.remap sources destinations filter = .error (.invalidArgument fault)) ∧
    (∀ (ss : ShardSession) (pool : Memory.Pool) (r : Regroup) (e : Error), ss.lookup = l →
      ss.closed = false → ss.regrouped r = .error e →
        (ShardSession.regroup r).apply (ss, pool) = (.error e, (ss, pool))) := by
  refine ⟨fun lo hi negate => ⟨metricFilter_eq hsize hcover batch lo hi negate,
      hl.moved_exact fun d g _ => filtered_settles negate g _⟩,
    fun lo hi t n p hr hn hp => ⟨targetedMetricFilter_eq hsize hcover batch hr hn hp,
      hl.moved_exact fun d g _ => rangeSplit_settles hn hp g _⟩,
    fun lo hi t n p h => targetedMetricFilter_refused h,
    fun sources destinations filter hlen hdst => ⟨remap_eq hl hsize hlen hdst,
      hl.moved_exact fun _ g _ => renamed_settles hdst g⟩,
    fun sources destinations filter h => remap_refused h,
    fun ss pool r e _ hc h => ShardSession.regroup_apply_of_error pool hc h⟩

/-- Renaming `1 ↦ 2` and `2 ↦ 3` over groups `1, 2, 3, 0`, with a stat covering the four
documents: the rename computes its definition. -/
theorem renames_at_once :
    let l := ofGroups #[1, 2, 3, 0]
    let stat : StatColumn := ⟨#[1, 5, 10, 15]⟩
    l.Bounded ∧ l.size ≤ 2 ^ 32 ∧ l.size ≤ stat.numDocs ∧
      l.remap [1, 2] [2, 3] false = .ok (l.moved fun _ g => renamed [1, 2] [2, 3] false g) := by
  intro l stat
  have hl : l.Bounded := Exact.bounded (recalculate_exact (l := ⟨#[1, 2, 3, 0], 1⟩)
    (by simp [lastGroup]))
  have hsize : l.size ≤ 2 ^ 32 := by simp [l, ofGroups, recalculate, size]
  have hcover : l.size ≤ stat.numDocs := by simp [l, stat, ofGroups, recalculate, size,
    StatColumn.numDocs]
  have hdst : ∀ g ∈ [(2 : GroupId), 3], g < maxNumGroups := by simp [maxNumGroups]
  exact ⟨hl, hsize, hcover,
    ((stat_filters_and_renames_exact l stat 1 hl hsize hcover).2.2.2.1 [1, 2] [2, 3] false rfl
      hdst).1⟩

/- Group 1 ends in 2, not in 3: the pairs are not chained. -/
example : ((ofGroups #[1, 2, 3, 0]).moved fun _ g => renamed [1, 2] [2, 3] false g).groups =
    #[2, 3, 3, 0] := by
  decide

end Lookup

end GroupStats
