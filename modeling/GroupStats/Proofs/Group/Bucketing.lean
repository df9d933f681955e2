import GroupStats.Proofs.Group.Bound

/-!
# Metric bucketing is exact

A metric regroup cuts `[min, max)` into `B = ⌊(max - 1 - min) / interval⌋ + 1` buckets and gives
every source group a run of `P` groups: `B` without gutters, `B + 2` with them. Read over the
integers, source group `g` owns the run `((g - 1) · P, g · P]`: a value inside the range goes to
bucket `⌊(v - min) / interval⌋ + 1` of it, and a value below or above the range to the low or
high gutter after the buckets, or to group 0 when the gutters are off (`Buckets.target`).

The regroup refuses, as an invalid argument, a shape whose interval is not positive, whose range
is empty, or whose runs for the groups below the lookup's bound do not end below `maxNumGroups`
(`Buckets.Fits`). The engine computes a destination from a run length saturated to 64 bits and a
bucket count rounded toward zero, then keeps the low 32 bits; for a shape that fits, none of this
loses anything (`destination_eq_target`), even at the ends of the 64-bit range.

The walk over the documents reads groups by position and writes them back in batches; on an
assignment of at most `2 ^ 32` documents each position is its own document, so the walk moves
every document by its own group and value (`remapByStat_eq`). Only a stat that covers the
assignment is walked: a shorter one fails the walk as a size mismatch, but only once the shape has
passed its check.
-/

namespace GroupStats

namespace Buckets

/-- `B`, the number of buckets inside the range, over the integers. -/
def inRange (b : Buckets) : Int := (b.max.toInt - 1 - b.min.toInt) / b.interval.toInt + 1

/-- `P`, the run of groups each source group expands into: its buckets, and after them the two
gutters unless they are turned off. -/
def span (b : Buckets) : Int := if b.noGutters then b.inRange else b.inRange + 2

/-- Where a document of source group `g` with value `v` belongs, over the integers: in the run
of `g`, the bucket of `v` or the low or high gutter after the buckets; group 0 for a value
outside the range when the gutters are off. -/
def target (b : Buckets) (g : Nat) (v : Int64) : Int :=
  let base := ((g : Int) - 1) * b.span
  if v.toInt < b.min.toInt then (if b.noGutters then 0 else base + b.inRange + 1)
  else if b.max.toInt ≤ v.toInt then (if b.noGutters then 0 else base + b.inRange + 2)
  else base + (v.toInt - b.min.toInt) / b.interval.toInt + 1

/-- A shape fits a lookup with bound `numGroups` when its interval is positive, its range is not
empty, and the runs of the source groups below the bound end below `maxNumGroups`. -/
def Fits (b : Buckets) (numGroups : UInt32) : Prop :=
  0 < b.interval.toInt ∧ b.min.toInt < b.max.toInt ∧
    ((numGroups.toNat : Int) - 1) * b.span + 1 ≤ maxNumGroups.toNat

instance (b : Buckets) (n : UInt32) : Decidable (b.Fits n) :=
  inferInstanceAs (Decidable (_ ∧ _ ∧ _))

variable {b : Buckets} {n : UInt32}

/-- For a positive interval and a range that is not empty the numerator is not negative, so
rounding toward zero is rounding down: the engine's count is `B`. -/
theorem count_eq_inRange (hr : b.min.toInt < b.max.toInt) :
    b.count = b.inRange := by
  rw [count, inRange, Int.tdiv_eq_ediv_of_nonneg (by omega)]

theorem one_le_inRange (hi : 0 < b.interval.toInt) (hr : b.min.toInt < b.max.toInt) :
    1 ≤ b.inRange := by
  have := Int.ediv_nonneg (a := b.max.toInt - 1 - b.min.toInt) (by omega) hi.le
  unfold inRange
  omega

theorem inRange_le_span : b.inRange ≤ b.span := by
  unfold span
  split <;> omega

/-- The check passes exactly on the shapes that fit a lookup whose bound is at least one. -/
theorem validate_eq_ok_iff (hn : 1 ≤ n) : b.validate n = .ok () ↔ b.Fits n := by
  rw [validate_eq_ok, Int64.lt_iff_toInt_lt, Int64.lt_iff_toInt_lt, Int64.toInt_zero,
    if_neg (UInt32.not_lt.mpr hn)]
  constructor
  · rintro ⟨hi, hr, hneed⟩
    refine ⟨hi, hr, ?_⟩
    rwa [span, ← count_eq_inRange hr]
  · rintro ⟨hi, hr, hneed⟩
    refine ⟨hi, hr, ?_⟩
    rwa [span, ← count_eq_inRange hr] at hneed

/-- A check that refuses under a condition either passes or refuses as an invalid argument. -/
theorem passes_or_refuses (c : Prop) [Decidable c] (fault : ArgumentFault) :
    (if c then throw (.invalidArgument fault) else pure () : Except Error Unit) = .ok () ∨
      ∃ f, (if c then throw (.invalidArgument fault) else pure () : Except Error Unit) =
        .error (.invalidArgument f) := by
  by_cases h : c
  · exact .inr ⟨fault, by rw [if_pos h]; rfl⟩
  · exact .inl (by rw [if_neg h]; rfl)

/-- The check refuses a shape only as an invalid argument. -/
theorem validate_cases (b : Buckets) (n : UInt32) :
    b.validate n = .ok () ∨ ∃ fault, b.validate n = .error (.invalidArgument fault) := by
  unfold validate
  by_cases h1 : b.interval ≤ 0
  · exact .inr ⟨_, by simp only [h1, if_true]; rfl⟩
  · by_cases h2 : b.max ≤ b.min
    · exact .inr ⟨_, by simp only [h1, h2, if_true, if_false]; rfl⟩
    · simp only [h1, h2, if_false]
      exact passes_or_refuses _ _

/-! ### Runs of groups -/

section Target

variable {g g' : Nat}

/-- Within the run of its group a document lands on a bucket, numbered from one, or on a gutter
after the last bucket; without gutters a value outside the range goes to group 0. -/
theorem target_offset (hf : b.Fits n) (g : Nat) (v : Int64) :
    b.target g v = 0 ∨
      (1 ≤ b.target g v - ((g : Int) - 1) * b.span ∧
        b.target g v - ((g : Int) - 1) * b.span ≤ b.span) := by
  obtain ⟨hi, hr, -⟩ := hf
  have hB := one_le_inRange hi hr
  have hBP := inRange_le_span (b := b)
  simp only [target]
  by_cases hlo : v.toInt < b.min.toInt
  · rw [if_pos hlo]
    cases hng : b.noGutters
    · simp only [span, hng, Bool.false_eq_true, if_false]
      omega
    · exact .inl rfl
  · rw [if_neg hlo]
    by_cases hhi : b.max.toInt ≤ v.toInt
    · rw [if_pos hhi]
      cases hng : b.noGutters
      · simp only [span, hng, Bool.false_eq_true, if_false]
        omega
      · exact .inl rfl
    · -- a value inside the range lies at or below `max - 1`, so its bucket is at most `B`
      rw [if_neg hhi]
      have h0 := Int.ediv_nonneg (a := v.toInt - b.min.toInt) (by omega) hi.le
      have hle := Int.ediv_le_ediv (a := v.toInt - b.min.toInt)
        (b := b.max.toInt - 1 - b.min.toInt) hi (by omega)
      unfold inRange at hBP
      omega

/-- The runs of the groups below a bound that fits end below `maxNumGroups`. -/
theorem run_end_lt (hf : b.Fits n) (hgn : g < n.toNat) :
    (g : Int) * b.span < maxNumGroups.toNat := by
  obtain ⟨hi, hr, hneed⟩ := hf
  have hP : 0 ≤ b.span := le_trans (by have := one_le_inRange hi hr; omega) inRange_le_span
  calc (g : Int) * b.span
      ≤ ((n.toNat : Int) - 1) * b.span := Int.mul_le_mul_of_nonneg_right (by omega) hP
    _ < maxNumGroups.toNat := by omega

/-- A document of a source group below the bound goes to a group below `maxNumGroups`. -/
theorem target_bounds (hf : b.Fits n) (hg : 1 ≤ g) (hgn : g < n.toNat) (v : Int64) :
    0 ≤ b.target g v ∧ b.target g v < maxNumGroups.toNat := by
  have hend := run_end_lt hf hgn
  have hbase : 0 ≤ ((g : Int) - 1) * b.span := Int.mul_nonneg (by omega)
    (le_trans (by have := one_le_inRange hf.1 hf.2.1; omega) inRange_le_span)
  have hrun : ((g : Int) - 1) * b.span + b.span = g * b.span := by rw [Int.sub_mul, Int.one_mul]; omega
  rcases target_offset hf g v with h0 | ⟨h1, h2⟩
  · rw [h0]
    exact ⟨le_rfl, by decide⟩
  · omega

/-- Distinct source groups below the bound send their documents into disjoint runs: a document
that does not go to group 0 lands on a group no document of another source group reaches. -/
theorem target_ne_of_ne (hf : b.Fits n) (hne : g ≠ g')
    (v v' : Int64) (h0 : b.target g v ≠ 0) : b.target g v ≠ b.target g' v' := by
  intro heq
  have hP : 0 ≤ b.span := le_trans (by have := one_le_inRange hf.1 hf.2.1; omega) inRange_le_span
  -- the run of `g` is `((g - 1) · P, g · P]`, and so is that of `g'` around the same group
  have hrun : ∀ k : Nat, ((k : Int) - 1) * b.span + b.span = k * b.span := fun k => by
    rw [Int.sub_mul, Int.one_mul]; omega
  rcases target_offset hf g v with h | ⟨h1, h2⟩
  · exact h0 h
  rcases target_offset hf g' v' with h' | ⟨h1', h2'⟩
  · exact h0 (heq.trans h')
  have := hrun g
  have := hrun g'
  rcases Nat.lt_or_gt_of_ne hne with hlt | hlt
  · have : (g : Int) * b.span ≤ ((g' : Int) - 1) * b.span :=
      Int.mul_le_mul_of_nonneg_right (by omega) hP
    omega
  · have : (g' : Int) * b.span ≤ ((g : Int) - 1) * b.span :=
      Int.mul_le_mul_of_nonneg_right (by omega) hP
    omega

/-- For a shape that fits, the saturated 64-bit run length is the run length `P`. -/
theorem perSource_toInt_eq_span (hf : b.Fits n) (hgn : 1 < n.toNat) : b.perSource.toInt = b.span := by
  obtain ⟨hi, hr, hneed⟩ := hf
  have hc := count_eq_inRange hr
  have hP : 0 ≤ b.span := le_trans (by have := one_le_inRange hi hr; omega) inRange_le_span
  -- with two groups or more, one whole run ends below `maxNumGroups`
  have hle : b.span ≤ ((n.toNat : Int) - 1) * b.span := le_mul_of_one_le_left hP (by omega)
  have hper := perSource_toInt (b := b) (by rw [hc]; exact one_le_inRange hi hr)
    (by rw [hc, ← span]; change _ ≤ (2147483647 : Int) at hneed; omega)
  rw [hper, hc]
  rfl

/-- For a shape that fits, the engine's destination of a document of a source group below the
bound is its target: neither the saturated run length nor the 32-bit narrowing changes it. -/
theorem destination_eq_target (hf : b.Fits n) {g : GroupId} (hg0 : g ≠ noGroup) (hgn : g < n)
    (v : Int64) : ((b.destination g v).toNat : Int) = b.target g.toNat v := by
  have hg1 : 1 ≤ g.toNat := by
    have : g.toNat ≠ 0 := fun h => hg0 (UInt32.toNat_inj.mp (by simpa [noGroup] using h))
    omega
  have hgn' : g.toNat < n.toNat := UInt32.lt_iff_toNat_lt.mp hgn
  obtain ⟨h0, hlt⟩ := target_bounds hf hg1 hgn' v
  have hlow : b.destination g v = lowWord (b.target g.toNat v) := by
    have hper := perSource_toInt_eq_span hf (by omega)
    unfold destination target
    simp only [hper, count_eq_inRange hf.2.1, Int64.lt_iff_toInt_lt, ge_iff_le,
      Int64.le_iff_toInt_le]
    split_ifs
    · rfl
    · rfl
    · rfl
    · rfl
    · -- inside the range the numerator is not negative, so both divisions agree
      rw [Int.tdiv_eq_ediv_of_nonneg (by omega)]
  rw [hlow, lowWord_toNat h0 (lt_of_lt_of_le hlt (by decide)), Int.toNat_of_nonneg h0]

end Target

end Buckets

namespace Lookup

/-! ### The walk moves each document by its own group and value -/

section Walk

variable {l lc : Lookup} {stat : StatColumn} {F : GroupId × Int64 → GroupId}

/-- The groups a batch of a stat walk writes are the rewrites of the group and value read at
each of its positions. -/
theorem zip_walk (x : List Nat) (lc : Lookup) :
    ((x.map (lc.groups.getD · 0)).zip (stat.lookup (x.map Nat.toUInt32))).map F =
      x.map fun k => F (lc.groups.getD k 0, stat.get k.toUInt32) := by
  induction x with
  | nil => rfl
  | cons k x ih =>
    simp only [List.map_cons, StatColumn.lookup, List.zip_cons_cons] at ih ⊢
    rw [ih]

/-- A batch that writes each of some distinct positions below `2 ^ 32` once, with a value that
depends on the position alone, sets those inside the assignment and leaves the others. -/
theorem getElem?_batchSet_map {x : List Nat} (G : Nat → GroupId) (hx : x.Nodup)
    (hlt : ∀ k ∈ x, k < 2 ^ 32) (j : Nat) :
    ∀ lc : Lookup, (lc.batchSet (x.map Nat.toUInt32) (x.map G)).groups[j]? =
      if j ∈ x ∧ j < lc.size then some (G j) else lc.groups[j]? := by
  induction x with
  | nil => intro lc; simp [batchSet]
  | cons k x ih =>
    intro lc
    rw [List.nodup_cons] at hx
    have hk : k.toUInt32.toNat = k := by
      have := hlt k (List.mem_cons_self ..)
      simp only [Nat.toUInt32, UInt32.toNat_ofNat']
      omega
    -- the batch writes `k` first, then the rest of the positions
    have hstep : lc.batchSet ((k :: x).map Nat.toUInt32) ((k :: x).map G) =
        (lc.set k.toUInt32 (G k)).batchSet (x.map Nat.toUInt32) (x.map G) := rfl
    rw [hstep, ih hx.2 (fun k' hk' => hlt k' (List.mem_cons_of_mem _ hk')), size_set, groups_set,
      Array.getElem?_setIfInBounds, hk]
    by_cases hj : j ∈ x
    · have hjk : k ≠ j := fun e => hx.1 (e ▸ hj)
      simp [hj, hjk]
    · by_cases hjk : k = j
      · subst hjk
        by_cases hks : k < lc.groups.size
        · simp [hj, hks, size]
        · simp [hj, hks, size]
      · simp [hj, hjk, Ne.symm hjk]

/-- What a stat walk has done once only the batches `rest` are left: every position of the
assignment outside them holds the rewrite of its old group and value. -/
def Walked (l : Lookup) (stat : StatColumn) (F : GroupId × Int64 → GroupId) (lc : Lookup)
    (rest : List (List Nat)) : Prop :=
  ∀ p < l.size, p ∉ rest.flatten → lc.groups[p]? = some (F (l.groups.getD p 0, stat.get p.toUInt32))

theorem walked_start (batch : Nat) : Walked l stat F l (chunks batch (List.range l.size)) := by
  intro p hp hn
  rw [flatten_chunks] at hn
  exact absurd (List.mem_range.mpr hp) hn

/-- One batch rewrites its own positions, which no earlier batch wrote, and leaves the rest. -/
theorem Walked.next (hsmall : l.size ≤ 2 ^ 32) {x : List Nat} {xs : List (List Nat)}
    (hw : Walking l stat F lc (x :: xs)) (hd : Walked l stat F lc (x :: xs)) :
    Walked l stat F (lc.batchSet (x.map Nat.toUInt32)
      (((x.map (lc.groups.getD · 0)).zip (stat.lookup (x.map Nat.toUInt32))).map F)) xs := by
  have hsorted := hw.sorted
  rw [List.flatten_cons, List.pairwise_append] at hsorted
  have hlt : ∀ k ∈ x, k < 2 ^ 32 := fun k hk =>
    Nat.lt_of_lt_of_le (hw.lt_size k (by simp [hk])) hsmall
  intro p hp hn
  rw [zip_walk, getElem?_batchSet_map _ (hsorted.1.imp Nat.ne_of_lt) hlt]
  by_cases hpx : p ∈ x
  · rw [if_pos ⟨hpx, by rw [hw.size_eq]; exact hp⟩]
    have hold : lc.groups.getD p 0 = l.groups.getD p 0 := by
      simp only [Array.getD_eq_getD_getElem?, hw.untouched p (by simp [hpx])]
    rw [hold]
  · rw [if_neg fun h => hpx h.1]
    exact hd p hp (by simp [hpx, hn])

/-- On an assignment of at most `2 ^ 32` documents, a walk over a stat that covers it moves each
document by its own group and value, group 0 staying put. -/
theorem remapByStat_eq (hsmall : l.size ≤ 2 ^ 32) (hcover : l.size ≤ stat.numDocs) (batch : Nat)
    (move : GroupId → Int64 → GroupId) :
    ∃ l', l.remapByStat stat batch move = .ok l' ∧ l'.size = l.size ∧
      ∀ d : DocId, d.toNat < l.size →
        l'.get d = if l.get d = noGroup then noGroup else move (l.get d) (stat.get d) := by
  unfold remapByStat
  rw [if_neg (Nat.not_lt.mpr hcover)]
  refine ⟨_, rfl, ?_⟩
  have hw := foldl_invariant (fun lc rest =>
      Walking l stat (fun p => if p.1 = noGroup then p.1 else move p.1 p.2) lc rest ∧
        Walked l stat (fun p => if p.1 = noGroup then p.1 else move p.1 p.2) lc rest)
    (fun _ _ _ h => ⟨h.1.next, h.2.next hsmall h.1⟩) _ _ ⟨walking_start batch, walked_start batch⟩
  refine ⟨hw.1.size_eq, fun d hd => ?_⟩
  have hdd : d.toNat.toUInt32 = d := by simp
  have hpos := hw.2 d.toNat hd (by simp)
  rw [hdd] at hpos
  simp only [get, Array.getD_eq_getD_getElem?]
  split <;> simp_all

/-- Every group held by an assignment of at most `2 ^ 32` documents is the group of one of its
documents. -/
theorem exists_get_of_mem (hsmall : l.size ≤ 2 ^ 32) {g : GroupId} (hg : g ∈ l.groups) :
    ∃ d : DocId, d.toNat < l.size ∧ l.get d = g := by
  obtain ⟨p, hp⟩ := Array.mem_iff_getElem?.mp hg
  have hlt : p < l.size := (Array.getElem?_eq_some_iff.mp hp).1
  refine ⟨p.toUInt32, ?_, ?_⟩
  · simp only [Nat.toUInt32, UInt32.toNat_ofNat']
    omega
  · have : p.toUInt32.toNat = p := by simp only [Nat.toUInt32, UInt32.toNat_ofNat']; omega
    simp [get, Array.getD_eq_getD_getElem?, this, hp]

theorem get_mem {d : DocId} (hd : d.toNat < l.size) : l.get d ∈ l.groups := by
  have hd' : d.toNat < l.groups.size := hd
  simp only [get, Array.getD_eq_getD_getElem?, Array.getElem?_eq_getElem hd', Option.getD_some]
  exact Array.getElem_mem hd'

end Walk

/-! ### The metric regroup -/

section Metric

variable {l : Lookup} {stat : StatColumn} {batch : Nat} {b : Buckets}

/-- A metric regroup with a shape that fits walks every covering stat, sending each document of a
group other than 0 to its target and keeping group 0, and leaves an exact bound. -/
theorem metric_of_fits (hl : l.Bounded) (hsmall : l.size ≤ 2 ^ 32) (hf : b.Fits l.numGroups)
    (hcover : l.size ≤ stat.numDocs) :
    ∃ l', l.metric stat batch b = .ok l' ∧ l'.Exact ∧ l'.size = l.size ∧
      ∀ d : DocId, d.toNat < l.size →
        if l.get d = noGroup then l'.get d = noGroup
        else ((l'.get d).toNat : Int) = b.target (l.get d).toNat (stat.get d) := by
  have hv : b.validate l.numGroups = .ok () := (Buckets.validate_eq_ok_iff hl.one_le).mpr hf
  obtain ⟨l₁, hwalk, hsize, hget⟩ := remapByStat_eq hsmall hcover batch b.destination
  refine ⟨l₁.recalculate, ?_, ?_, hsize, fun d hd => ?_⟩
  · simp only [metric, hv, hwalk, bind, Except.bind, pure, Except.pure]
  · -- every group written is 0 or a destination below `maxNumGroups`
    refine recalculate_exact fun g hg => ?_
    obtain ⟨d, hd, rfl⟩ := exists_get_of_mem (by rw [hsize]; exact hsmall) hg
    rw [hsize] at hd
    rw [hget d hd]
    split
    · exact ne_lastGroup_of_lt (show noGroup < maxNumGroups by decide)
    · exact ne_lastGroup_of_lt (Buckets.destination_lt hv ‹_› (hl.lt _ (get_mem hd)) _)
  · have hrec : l₁.recalculate.get d = l₁.get d := rfl
    rw [hrec, hget d hd]
    split
    · rfl
    · exact Buckets.destination_eq_target hf ‹_› (hl.lt _ (get_mem hd)) _

/-- Metric bucketing is exact at the 64-bit limits: the regroup fails as an invalid argument exactly
when the shape does not fit the bound, whatever the stat; a fitting shape fails as a size mismatch
on a short stat and otherwise sends each document outside group 0 to its target. Every target lies
below `maxNumGroups`, and distinct source groups get disjoint runs. -/
theorem metric_buckets_exact (l : Lookup) (stat : StatColumn) (batch : Nat) (b : Buckets)
    (hl : l.Bounded) (hsmall : l.size ≤ 2 ^ 32) :
    (¬ b.Fits l.numGroups → ∃ fault, l.metric stat batch b = .error (.invalidArgument fault)) ∧
    (b.Fits l.numGroups → stat.numDocs < l.size →
      l.metric stat batch b = .error (.sizeMismatch l.size stat.numDocs)) ∧
    (b.Fits l.numGroups → l.size ≤ stat.numDocs →
      ∃ l', l.metric stat batch b = .ok l' ∧ l'.Exact ∧ l'.size = l.size ∧
        ∀ d : DocId, d.toNat < l.size →
          if l.get d = noGroup then l'.get d = noGroup
          else ((l'.get d).toNat : Int) = b.target (l.get d).toNat (stat.get d)) ∧
    (b.Fits l.numGroups → ∀ g g' : Nat, 1 ≤ g → g < l.numGroups.toNat → ∀ v v' : Int64,
      0 ≤ b.target g v ∧ b.target g v < maxNumGroups.toNat ∧
        (g ≠ g' → b.target g v ≠ 0 → b.target g v ≠ b.target g' v')) := by
  refine ⟨fun hbad => ?_, fun hf hshort => ?_, fun hf hcover => metric_of_fits hl hsmall hf hcover,
    fun hf g g' hg hgn v v' => ⟨(Buckets.target_bounds hf hg hgn v).1,
      (Buckets.target_bounds hf hg hgn v).2, fun hne h0 => Buckets.target_ne_of_ne hf hne v v' h0⟩⟩
  · -- the check runs first and refuses the shape
    rcases Buckets.validate_cases b l.numGroups with hv | ⟨fault, hv⟩
    · exact absurd ((Buckets.validate_eq_ok_iff hl.one_le).mp hv) hbad
    · exact ⟨fault, by simp only [metric, hv, bind, Except.bind]⟩
  · have hv : b.validate l.numGroups = .ok () := (Buckets.validate_eq_ok_iff hl.one_le).mpr hf
    simp only [metric, hv, remapByStat, hshort, if_true, bind, Except.bind, throw, throwThe,
      MonadExceptOf.throw]

/-- Two buckets spanning nearly all of the 64-bit range, with gutters, over four documents of
group 1: the shape fits, and the regroup walks the stat to an exact bound. -/
theorem metric_buckets_exact_wide_range :
    let l := Lookup.create 4 1
    let stat : StatColumn := ⟨#[-2, 0, 9223372036854775806, -9223372036854775808]⟩
    let b : Buckets := ⟨-2, 9223372036854775807, 9223372036854775807, false⟩
    l.Bounded ∧ l.size ≤ 2 ^ 32 ∧ b.Fits l.numGroups ∧
      ∃ l', l.metric stat 4 b = .ok l' ∧ l'.Exact ∧ l'.size = l.size := by
  intro l stat b
  have hl : l.Bounded := bounded_replicate 4 (by decide)
  have hsmall : l.size ≤ 2 ^ 32 := by simp [l, Lookup.create, Lookup.size]
  have hf : b.Fits l.numGroups := by decide
  obtain ⟨l', hm, hex, hsize, -⟩ :=
    (metric_buckets_exact l stat 4 b hl hsmall).2.2.1 hf (by decide)
  exact ⟨hl, hsmall, hf, l', hm, hex, hsize⟩

/-- A zero interval over a stat shorter than the lookup: the shape is refused as an invalid
argument before the sizes are compared, so no size mismatch is reported. -/
theorem metric_refuses_shape_before_size :
    (Lookup.ofGroups #[1, 1]).metric ⟨#[5]⟩ 1 ⟨0, 10, 0, false⟩ =
      .error (.invalidArgument (.interval 0)) := by
  rfl

end Metric

end Lookup

end GroupStats
