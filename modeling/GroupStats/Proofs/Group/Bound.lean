import GroupStats.Proofs.Group.Moves
import GroupStats.Session.Shard

/-!
# The group bound

A lookup keeps an exclusive bound on the groups it holds. Every assignment raises the bound past
the group it writes, saturating at the largest word, and recalculating sets it to one more than
the largest group held. So as long as no group supplied is the largest word, the bound of every
lookup the operations build lies above every group held and is at least one, and after a
recalculation, so after every regroup, it is exactly one more than the largest group.

What a regroup writes is a group it read or a group below `maxNumGroups`: rules, splits and
renames check their destinations, and a metric bucketing checks that the runs of groups it
creates for the groups below the bound fit below `maxNumGroups`. A regroup therefore keeps an
assignment below `maxNumGroups`.
-/

namespace GroupStats

/-- The largest group id. No group supplied may be it: the bound past it saturates. -/
def lastGroup : GroupId := 4294967295

theorem toNat_succSat {g : GroupId} (hg : g ≠ lastGroup) : (succSat g).toNat = g.toNat + 1 := by
  have hg' : g ≠ 4294967295 := hg
  have : g.toNat ≠ 4294967295 := fun h => hg' (UInt32.toNat_inj.mp h)
  rw [succSat, if_neg hg', UInt32.toNat_add, UInt32.toNat_one]
  have := g.toNat_lt
  omega

theorem ne_lastGroup_of_lt {g n : GroupId} (h : g < n) : g ≠ lastGroup := by
  rintro rfl
  have := n.toNat_lt
  rw [UInt32.lt_iff_toNat_lt] at h
  exact absurd h (by simp [lastGroup]; omega)

/-! ### Metric buckets -/

namespace Buckets

variable {b : Buckets}

/-- A bucketing passes its check exactly when its interval is positive, its range is not
empty, and the runs of groups it creates for a lookup of `n` groups fit below
`maxNumGroups`. -/
theorem validate_eq_ok {n : UInt32} :
    b.validate n = .ok () ↔ 0 < b.interval ∧ b.min < b.max ∧
      ((if n < 1 then 1 else n).toNat - 1 : Int) * (if b.noGutters then b.count else b.count + 2)
        + 1 ≤ maxNumGroups.toNat := by
  unfold validate
  rw [← Int64.not_le, ← Int64.not_le]
  by_cases h1 : b.interval ≤ 0 <;> by_cases h2 : b.max ≤ b.min <;>
    simp [h1, h2, bind, Except.bind, throw, throwThe, MonadExceptOf.throw, pure, Except.pure]

theorem one_le_count (hi : 0 < b.interval) (hr : b.min < b.max) : 1 ≤ b.count := by
  rw [Int64.lt_iff_toInt_lt, Int64.toInt_zero] at hi
  rw [Int64.lt_iff_toInt_lt] at hr
  have := Int.tdiv_nonneg (a := b.max.toInt - 1 - b.min.toInt) (b := b.interval.toInt)
    (by omega) (by omega)
  unfold count
  omega

/-- A run of groups that fits in 64 bits is not saturated. -/
theorem perSource_toInt (hc : 1 ≤ b.count)
    (hper : (if b.noGutters then b.count else b.count + 2) < 2 ^ 63) :
    b.perSource.toInt = if b.noGutters then b.count else b.count + 2 := by
  have hnum : b.numBuckets.toInt = b.count := by
    have : b.count < 2 ^ 63 := by split at hper <;> omega
    simp only [numBuckets, Int.pow_eq]
    rw [if_pos ⟨by omega, this⟩, Int64.toInt_ofInt_of_le (by omega) this]
  unfold perSource
  split
  · exact hnum
  · rename_i hng
    rw [if_neg hng] at hper
    simp only [Int.pow_eq]
    rw [hnum, if_pos hper, Int64.toInt_ofInt_of_le (by omega) hper]

theorem lowWord_toNat {x : Int} (h0 : 0 ≤ x) (h : x < 2 ^ 32) : (lowWord x).toNat = x.toNat := by
  simp [lowWord, Int.pow_eq]
  omega

/-- A value inside the range lands in one of the buckets. -/
theorem bucket_le_count (hi : 0 < b.interval) {v : Int64} (hlo : ¬ v < b.min)
    (hhi : ¬ v ≥ b.max) :
    1 ≤ Int.tdiv (v.toInt - b.min.toInt) b.interval.toInt + 1 ∧
      Int.tdiv (v.toInt - b.min.toInt) b.interval.toInt + 1 ≤ b.count := by
  rw [Int64.lt_iff_toInt_lt, Int64.toInt_zero] at hi
  rw [Int64.lt_iff_toInt_lt] at hlo
  rw [ge_iff_le, Int64.le_iff_toInt_le] at hhi
  have h0 := Int.tdiv_nonneg (a := v.toInt - b.min.toInt) (b := b.interval.toInt)
    (by omega) (by omega)
  have hle := Int.tdiv_le_tdiv (a := v.toInt - b.min.toInt)
    (b := b.max.toInt - 1 - b.min.toInt) hi (by omega)
  unfold count
  omega

/-- A bucketing that passed its check sends a document of a group other than 0 below the bound
to a group below `maxNumGroups`. -/
theorem destination_lt {n g : GroupId} (hv : b.validate n = .ok ()) (hg0 : g ≠ noGroup)
    (hg : g < n) (v : Int64) : b.destination g v < maxNumGroups := by
  obtain ⟨hi, hr, hneed⟩ := validate_eq_ok.mp hv
  have hc := one_le_count hi hr
  have hg1 : 1 ≤ g.toNat := by
    have : g.toNat ≠ 0 := fun h => hg0 (UInt32.toNat_inj.mp (by simpa [noGroup] using h))
    omega
  have hgn : g.toNat + 1 ≤ n.toNat := UInt32.lt_iff_toNat_lt.mp hg
  rw [if_neg (by rw [UInt32.lt_iff_toNat_lt]; simp; omega)] at hneed
  have hM : (maxNumGroups.toNat : Int) = 2147483647 := rfl
  rw [hM] at hneed
  -- the run of `g` starts after those of the groups below it, and the check makes room for the
  -- runs of all groups below the bound, so any offset within the run lands below the bound
  have hrun : ∀ off, 1 ≤ off → off ≤ (if b.noGutters then b.count else b.count + 2) →
      lowWord (((g.toNat : Int) - 1) * b.perSource.toInt + off) < maxNumGroups := by
    intro off h1 h2
    have hper : (if b.noGutters then b.count else b.count + 2) < 2 ^ 63 := by nlinarith
    rw [perSource_toInt hc hper]
    have h0 : 0 ≤ ((g.toNat : Int) - 1) * (if b.noGutters then b.count else b.count + 2) + off := by
      nlinarith
    have hlt : ((g.toNat : Int) - 1) * (if b.noGutters then b.count else b.count + 2) + off <
        2147483647 := by nlinarith
    rw [UInt32.lt_iff_toNat_lt, lowWord_toNat h0 (by omega)]
    change _ < 2147483647
    omega
  unfold destination
  cases hgut : b.noGutters <;> simp only [hgut, Bool.false_eq_true, if_false, if_true] at hrun ⊢
  · split
    · rw [Int.add_assoc]
      exact hrun _ (by omega) (by omega)
    · split
      · rw [Int.add_assoc]
        exact hrun _ (by omega) (by omega)
      · have := bucket_le_count hi ‹_› ‹_›
        rw [Int.add_assoc]
        exact hrun _ this.1 (by omega)
  · split
    · decide
    · split
      · decide
      · have := bucket_le_count hi ‹_› ‹_›
        rw [Int.add_assoc]
        exact hrun _ this.1 this.2

end Buckets

namespace Lookup

variable {l l' : Lookup} {g : GroupId}

/-! ### Bounded and exact lookups -/

/-- The bound lies above every group held and is at least one. -/
structure Bounded (l : Lookup) : Prop where
  one_le : 1 ≤ l.numGroups
  lt : ∀ g ∈ l.groups, g < l.numGroups

/-- The largest group held, 0 for a lookup with no documents. -/
def maxGroup (l : Lookup) : Nat := l.groups.foldl (fun m g => max m g.toNat) 0

/-- The bound is one more than the largest group held, so one for a lookup with no
documents. -/
def Exact (l : Lookup) : Prop := l.numGroups.toNat = l.maxGroup + 1

theorem Bounded.ne_lastGroup (h : l.Bounded) (hg : g ∈ l.groups) : g ≠ lastGroup :=
  ne_lastGroup_of_lt (h.lt g hg)

/-- The running maximum of a fold lies above its start and every element. -/
theorem le_foldl_max (xs : List GroupId) (a : Nat) :
    a ≤ xs.foldl (fun m g => max m g.toNat) a ∧
      ∀ g ∈ xs, g.toNat ≤ xs.foldl (fun m g => max m g.toNat) a := by
  induction xs generalizing a with
  | nil => simp
  | cons x xs ih =>
    obtain ⟨hle, hall⟩ := ih (max a x.toNat)
    refine ⟨le_trans (le_max_left _ _) hle, fun g hg => ?_⟩
    rcases List.mem_cons.mp hg with rfl | hg
    · exact le_trans (le_max_right _ _) hle
    · exact hall g hg

theorem le_maxGroup (hg : g ∈ l.groups) : g.toNat ≤ l.maxGroup := by
  rw [maxGroup, ← Array.foldl_toList]
  exact (le_foldl_max _ 0).2 g (Array.mem_toList_iff.mpr hg)

theorem Exact.bounded (h : l.Exact) : l.Bounded where
  one_le := by
    rw [UInt32.le_iff_toNat_le, h]
    simp
  lt g hg := by
    rw [UInt32.lt_iff_toNat_lt, h]
    have := le_maxGroup hg
    omega

/-- Recalculating folds the successors of the groups; without the largest id among them, the
fold is the largest successor. -/
theorem foldl_succSat (xs : List GroupId) (hxs : ∀ g ∈ xs, g ≠ lastGroup) (m : UInt32) :
    (xs.foldl (fun m g => if m < succSat g then succSat g else m) m).toNat =
      xs.foldl (fun a g => max a (g.toNat + 1)) m.toNat := by
  induction xs generalizing m with
  | nil => rfl
  | cons x xs ih =>
    rw [List.foldl_cons, List.foldl_cons, ih (fun g hg => hxs g (List.mem_cons_of_mem x hg))]
    congr 1
    have hx := toNat_succSat (hxs x (List.mem_cons_self ..))
    split
    · rename_i hlt
      rw [UInt32.lt_iff_toNat_lt] at hlt
      omega
    · rename_i hlt
      rw [UInt32.lt_iff_toNat_lt] at hlt
      omega

theorem foldl_max_succ (xs : List GroupId) (a : Nat) :
    xs.foldl (fun b g => max b (g.toNat + 1)) (a + 1) = xs.foldl (fun m g => max m g.toNat) a + 1 := by
  induction xs generalizing a with
  | nil => rfl
  | cons x xs ih =>
    rw [List.foldl_cons, List.foldl_cons, ← ih, Nat.succ_max_succ]

/-- Recalculating the bound of an assignment without the largest id makes it exact. -/
theorem recalculate_exact (h : ∀ g ∈ l.groups, g ≠ lastGroup) : l.recalculate.Exact := by
  simp only [Exact, recalculate, maxGroup, ← Array.foldl_toList]
  rw [foldl_succSat _ (fun g hg => h g (Array.mem_toList_iff.mp hg)), UInt32.toNat_one,
    foldl_max_succ]

/-! ### What each operation keeps -/

theorem le_succSat (g : GroupId) : g ≤ succSat g := by
  by_cases hg : g = lastGroup
  · simp only [succSat, if_pos (show g = 4294967295 from hg), UInt32.le_refl]
  · rw [UInt32.le_iff_toNat_le, toNat_succSat hg]
    omega

theorem numGroups_le_bump : l.numGroups ≤ (l.bump g).numGroups := by
  unfold bump
  split
  · exact UInt32.le_trans ‹_› (le_succSat g)
  · exact UInt32.le_refl _

theorem lt_bump (hg : g ≠ lastGroup) : g < (l.bump g).numGroups := by
  unfold bump
  split
  · rw [UInt32.lt_iff_toNat_lt, toNat_succSat hg]
    omega
  · exact UInt32.not_le.mp ‹_›

/-- A lookup whose bound did not fall, and each of whose groups was held before or lies below
the new bound, is bounded when the old one was. -/
theorem Bounded.of_mem (h : l.Bounded) (hN : l.numGroups ≤ l'.numGroups)
    (hmem : ∀ g ∈ l'.groups, g ∈ l.groups ∨ g < l'.numGroups) : l'.Bounded where
  one_le := UInt32.le_trans h.one_le hN
  lt g hg := (hmem g hg).elim (fun hg => UInt32.lt_of_lt_of_le (h.lt g hg) hN) id

theorem Bounded.set (h : l.Bounded) (d : DocId) (hg : g ≠ lastGroup) : (l.set d g).Bounded := by
  refine h.of_mem (numGroups_le_bump (l := { l with groups := l.groups.setIfInBounds d.toNat g }))
    fun x hx => ?_
  rw [groups_set] at hx
  refine (Array.mem_or_eq_of_mem_setIfInBounds hx).imp id fun e => ?_
  rw [e]
  exact lt_bump hg

theorem Bounded.batchSet (h : l.Bounded) (docs : List DocId) {groups : List GroupId}
    (hgs : ∀ g ∈ groups, g ≠ lastGroup) : (l.batchSet docs groups).Bounded := by
  unfold Lookup.batchSet
  have hps : ∀ p ∈ docs.zip groups, p.2 ≠ lastGroup := fun p hp => hgs p.2 (List.of_mem_zip hp).2
  generalize docs.zip groups = ps at hps
  induction ps generalizing l with
  | nil => exact h
  | cons p ps ih =>
    exact ih (h.set p.1 (hps p (List.mem_cons_self ..))) fun q hq =>
      hps q (List.mem_cons_of_mem p hq)

/-- Every document in one group, with the bound just past it. -/
theorem bounded_replicate (n : Nat) (hg : g ≠ lastGroup) :
    (⟨Array.replicate n g, succSat g⟩ : Lookup).Bounded where
  one_le := by
    show 1 ≤ succSat g
    rw [UInt32.le_iff_toNat_le, toNat_succSat hg]
    simp
  lt x hx := by
    show x < succSat g
    rw [(Array.mem_replicate.mp hx).2, UInt32.lt_iff_toNat_lt, toNat_succSat hg]
    omega

theorem Bounded.recalculate (h : l.Bounded) : l.recalculate.Bounded :=
  (recalculate_exact fun _ hg => h.ne_lastGroup hg).bounded

/-- Applying rules writes only the checked positive groups of the table. -/
theorem Bounded.applyConditions (h : l.Bounded) {table : RuleTable Rule} (hc : table.Checked)
    (docs : List DocId) (marked : DocBits) (f : Field) (t : Term) :
    (l.applyConditions docs marked table f t).1.Bounded := by
  unfold Lookup.applyConditions
  refine foldl_invariant (fun (acc : Lookup × DocBits) _ => acc.1.Bounded) (fun acc d _ hacc => ?_) docs _ h
  obtain ⟨l, marked⟩ := acc
  dsimp only at hacc ⊢
  split
  · exact hacc
  · split
    · exact hacc
    · rename_i r hr
      split
      · have hpos := (hc.get? hr).2 r.positive (by simp [Targeted.destinations])
        exact hacc.set d (ne_lastGroup_of_lt hpos)
      · exact hacc

/-- A bitset split writes its target's documents to its two checked groups and raises the bound
past the larger. -/
theorem Bounded.bitSetRegroup (h : l.Bounded) {bits : DocBits} {t n p : GroupId}
    (hr : l.bitSetRegroup bits t n p = .ok l') : l'.Bounded := by
  obtain ⟨hc, rfl⟩ := bitSetRegroup_spec hr
  have hn := checkGroups_eq_ok.mp hc n (by simp)
  have hp := checkGroups_eq_ok.mp hc p (by simp)
  have hm : (if n < p then p else n) ≠ lastGroup := by
    split
    · exact ne_lastGroup_of_lt hp
    · exact ne_lastGroup_of_lt hn
  have hle : n ≤ (if n < p then p else n) ∧ p ≤ (if n < p then p else n) := by
    simp only [UInt32.le_iff_toNat_le, UInt32.lt_iff_toNat_lt]
    split <;> omega
  let l₁ : Lookup := { l with groups := l.groups.mapIdx fun i g =>
    if g = t then (if bits.get i then p else n) else g }
  have hlt := lt_bump (l := l₁) hm
  refine h.of_mem (numGroups_le_bump (l := l₁)) fun x hx => ?_
  simp only [groups_bump] at hx
  obtain ⟨i, hi, rfl⟩ := Array.mem_mapIdx.mp hx
  split
  · right
    split
    · exact UInt32.lt_of_le_of_lt hle.2 hlt
    · exact UInt32.lt_of_le_of_lt hle.1 hlt
  · exact .inl (Array.getElem_mem hi)

end Lookup

/-! ### What regroups write -/

/-- A move that keeps the group or lands below `maxNumGroups`. -/
def Settles (g h : GroupId) : Prop := h = g ∨ h < maxNumGroups

instance : Std.Refl Settles := ⟨fun _ => .inl rfl⟩

instance : IsTrans GroupId Settles :=
  ⟨fun _ _ _ hab hbc => hbc.elim (fun e => by rw [e]; exact hab) .inr⟩

namespace ShardSession

variable {s : ShardSession} {r : Regroup} {l' : Lookup}

/-- Every group after a run of settling moves was held before or lies below `maxNumGroups`. -/
theorem draws_of_moves {l'' : Lookup} (hm : Lookup.Moves Settles s.lookup l'') :
    ∀ g ∈ l''.groups, g ∈ s.lookup.groups ∨ g < maxNumGroups := fun g hg => by
  obtain ⟨g₀, hg₀, hs⟩ := hm.exists_mem hg
  exact hs.elim (fun e => .inl (e ▸ hg₀)) .inr

/-- Every group after a stat walk whose moves settle was held before or lies below
`maxNumGroups`. -/
theorem draws_of_walk {c : StatColumn} {batch : Nat} {move : GroupId → Int64 → GroupId}
    {l'' : Lookup} (hw : s.lookup.remapByStat c batch move = .ok l'')
    (hmove : ∀ g ∈ s.lookup.groups, g ≠ noGroup → ∀ v, Settles g (move g v)) :
    ∀ g ∈ l''.groups, g ∈ s.lookup.groups ∨ g < maxNumGroups := fun g hg => by
  rcases Lookup.remapByStat_mem hw hg with hmem | ⟨g₀, hg₀, h0, v, rfl⟩
  · exact .inl hmem
  · exact (hmove g₀ hg₀ h0 v).elim (fun e => .inl (by rw [e]; exact hg₀)) .inr

/-- A regroup of a bounded lookup writes only groups it read and groups below
`maxNumGroups`, and ends by recalculating the bound. -/
theorem regrouped_draws (hb : s.lookup.Bounded) (h : s.regrouped r = .ok l') :
    ∃ l'' : Lookup, l' = l''.recalculate ∧
      ∀ g ∈ l''.groups, g ∈ s.lookup.groups ∨ g < maxNumGroups := by
  cases r with
  | rules rs =>
    obtain ⟨l'', rfl, hm⟩ := Lookup.regroup_moves (R := Settles) (fun _ _ _ hh => .inr hh) h
    exact ⟨l'', rfl, draws_of_moves hm⟩
  | multisplit rs strict =>
    obtain ⟨l'', rfl, hm⟩ := Lookup.multisplit_moves (R := Settles) (fun _ _ _ hh => .inr hh) h
    exact ⟨l'', rfl, draws_of_moves hm⟩
  | termOr f ts t n p =>
    obtain ⟨l'', rfl, hm⟩ := Lookup.termOr_moves (R := Settles) (fun _ hh => .inr hh) h
    exact ⟨l'', rfl, draws_of_moves hm⟩
  | random f salt x t n p =>
    obtain ⟨l'', rfl, hm⟩ := Lookup.random_moves (R := Settles) (fun _ hh => .inr hh) h
    exact ⟨l'', rfl, draws_of_moves hm⟩
  | metric i b =>
    obtain ⟨c, -, h⟩ := bind_eq_ok.mp h
    obtain ⟨hv, l'', hw, rfl⟩ := Lookup.metric_spec h
    -- a bucketing checked against the bound lands every group below it under `maxNumGroups`
    exact ⟨l'', rfl, draws_of_walk hw fun g hg h0 v =>
      .inr (Buckets.destination_lt hv h0 (hb.lt g hg) v)⟩
  | metricFilter i lo hi neg =>
    obtain ⟨c, -, h⟩ := bind_eq_ok.mp h
    obtain ⟨-, l'', hw, rfl⟩ := Lookup.metricFilter_spec h
    refine ⟨l'', rfl, draws_of_walk hw fun g _ _ v => ?_⟩
    split
    · exact .inl rfl
    · exact .inr (by decide)
  | randomMulti f salt t th rs =>
    obtain ⟨l'', rfl, hm⟩ := Lookup.randomMulti_moves (R := Settles) (fun _ hh => .inr hh) h
    exact ⟨l'', rfl, draws_of_moves hm⟩
  | targetedFilter i lo hi t n p =>
    obtain ⟨c, -, h⟩ := bind_eq_ok.mp h
    obtain ⟨-, hc, l'', hw, rfl⟩ := Lookup.targetedMetricFilter_spec h
    refine ⟨l'', rfl, draws_of_walk hw fun g _ _ v => ?_⟩
    split
    · exact .inl rfl
    · split
      · exact .inr (checkGroups_eq_ok.mp hc p (by simp))
      · exact .inr (checkGroups_eq_ok.mp hc n (by simp))
  | remap src dst fl =>
    obtain ⟨l'', rfl, hm⟩ := Lookup.remap_moves (R := Settles) (fun _ _ _ hh => .inr hh) h
    exact ⟨l'', rfl, draws_of_moves hm⟩
  | reset =>
    cases h
    refine ⟨s.lookup.fill 1, rfl, fun g hg => .inr ?_⟩
    rw [(Array.mem_replicate.mp hg).2]
    decide

/-- A regroup of a bounded lookup leaves its bound exact. -/
theorem regrouped_exact (hb : s.lookup.Bounded) (h : s.regrouped r = .ok l') : l'.Exact := by
  obtain ⟨l'', rfl, hdraw⟩ := regrouped_draws hb h
  refine Lookup.recalculate_exact fun g hg => ?_
  rcases hdraw g hg with hmem | hlt
  · exact hb.ne_lastGroup hmem
  · exact ne_lastGroup_of_lt hlt

end ShardSession

/-! ### Lookups the operations build -/

namespace Lookup

variable {l : Lookup}

/-- The lookups the lookup operations build from a new lookup or an assignment when no group
supplied is the largest id. A call that fails leaves its lookup as it was, so the calls that
succeed build all of them. -/
inductive Reachable : Lookup → Prop
  | create (size : Nat) {g : GroupId} : g ≠ lastGroup → Reachable (Lookup.create size g)
  | ofGroups {groups : Array GroupId} :
      (∀ g ∈ groups, g ≠ lastGroup) → Reachable (Lookup.ofGroups groups)
  | set {l : Lookup} (d : DocId) {g : GroupId} : Reachable l → g ≠ lastGroup → Reachable (l.set d g)
  | fill {l : Lookup} {g : GroupId} : Reachable l → g ≠ lastGroup → Reachable (l.fill g)
  | batchSet {l : Lookup} (docs : List DocId) {groups : List GroupId} : Reachable l →
      (∀ g ∈ groups, g ≠ lastGroup) → Reachable (l.batchSet docs groups)
  | applyConditions {l : Lookup} {rules : List Rule} {n : UInt32} {table : RuleTable Rule}
      (docs : List DocId) (marked : DocBits) (f : Field) (t : Term) : Reachable l →
      RuleTable.build rules n = .ok table → Reachable (l.applyConditions docs marked table f t).1
  | bitSetRegroup {l l' : Lookup} {bits : DocBits} {t n p : GroupId} : Reachable l →
      l.bitSetRegroup bits t n p = .ok l' → Reachable l'
  | copyInto {l other l' : Lookup} : Reachable l → l.copyInto other = .ok l' → Reachable l'
  | recalculate {l : Lookup} : Reachable l → Reachable l.recalculate
  | regroup {s : ShardSession} {r : Regroup} {l' : Lookup} : Reachable s.lookup →
      s.regrouped r = .ok l' → Reachable l'

/-- Every operation keeps the bound above the groups held: the invariant of every lookup the
operations build. -/
theorem Reachable.bounded (hl : l.Reachable) : l.Bounded := by
  induction hl with
  | create size hg => exact bounded_replicate size hg
  | ofGroups hgs => exact (recalculate_exact hgs).bounded
  | set d _ hg ih => exact ih.set d hg
  | fill _ hg _ => exact bounded_replicate _ hg
  | batchSet docs _ hgs ih => exact ih.batchSet docs hgs
  | applyConditions docs marked f t _ ht ih =>
    exact ih.applyConditions (RuleTable.checked_build ht) docs marked f t
  | bitSetRegroup _ h ih => exact ih.bitSetRegroup h
  | copyInto _ h ih =>
    unfold Lookup.copyInto at h
    split at h
    · cases h
      exact ih
    · cases h
  | recalculate _ ih => exact ih.recalculate
  | regroup _ h ih => exact (ShardSession.regrouped_exact ih h).bounded

/-- Every lookup the operations build has its bound above every group it holds and at least
one, and recalculating makes the bound one more than the largest group. A regroup of it leaves
the bound exact too, and keeps an assignment below `maxNumGroups` there. -/
theorem reachable_bound_exact (hl : l.Reachable) :
    l.Bounded ∧ l.recalculate.Exact ∧
      ∀ (s : ShardSession) (r : Regroup) (l' : Lookup), s.lookup = l → s.regrouped r = .ok l' →
        l'.Exact ∧ ((∀ g ∈ l.groups, g < maxNumGroups) → ∀ g ∈ l'.groups, g < maxNumGroups) := by
  have hb := hl.bounded
  refine ⟨hb, recalculate_exact fun _ hg => hb.ne_lastGroup hg, ?_⟩
  rintro s r l' rfl h
  refine ⟨ShardSession.regrouped_exact hb h, fun hall g hg => ?_⟩
  obtain ⟨l'', rfl, hdraw⟩ := ShardSession.regrouped_draws hb h
  exact (hdraw g hg).elim (hall g) id

theorem reachable_bound_exact_after_set :
    ((Lookup.create 3 1).set 2 5).Reachable ∧ ((Lookup.create 3 1).set 2 5).Bounded ∧
      ((Lookup.create 3 1).set 2 5).recalculate.Exact :=
  have h : ((Lookup.create 3 1).set 2 5).Reachable := .set 2 (.create 3 (by decide)) (by decide)
  ⟨h, (reachable_bound_exact h).1, (reachable_bound_exact h).2.1⟩

end Lookup

end GroupStats
