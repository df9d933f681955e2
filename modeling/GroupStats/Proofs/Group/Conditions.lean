import GroupStats.Proofs.Group.RuleRegroup

/-!
# Applying rule conditions to a batch

A rule scan hands each batch of documents holding a term to `applyConditions`. A document that
is not marked yet, and whose group has a rule firing for the term, moves to the rule's positive
group and is marked; every other visit changes nothing. The positive group may carry a rule of
its own that fires for the same term, so a document listed twice would be moved twice but for
the mark.

`Lookup.conditionStep` is the visit of one document, and the pass is a fold of it
(`applyConditions_eq_foldl`). A visit writes only the slot and the mark of its document, and what
it does reads only these (`conditionStep_frame`, `firedGroup_congr`). Hence two visits of
different documents commute and a second visit of one changes nothing, so the pass depends only
on which documents are listed (`foldl_conditionStep_congr`); a document's first visit can then be
taken to come first, after which it stays `Settled`. `applyConditions_moves_once` puts these
together.
-/

namespace GroupStats

/-- A fold whose step commutes with itself and does nothing the second time it sees an item
gives the same result for any two lists with the same members. -/
theorem foldl_eq_of_mem_iff {α β : Type} [DecidableEq α] {F : β → α → β}
    (hcomm : ∀ b x y, F (F b x) y = F (F b y) x) (hidem : ∀ b x, F (F b x) x = F b x)
    {xs ys : List α} (h : ∀ a, a ∈ xs ↔ a ∈ ys) (b : β) : xs.foldl F b = ys.foldl F b := by
  -- an item that comes again later can be dropped now
  have absorb : ∀ (x : α) (zs : List α), x ∈ zs → ∀ c, zs.foldl F (F c x) = zs.foldl F c := by
    intro x zs hx c
    have hp := List.perm_cons_erase hx
    rw [hp.foldl_eq' (fun _ _ _ _ z => hcomm z _ _), hp.foldl_eq' (fun _ _ _ _ z => hcomm z _ _),
      List.foldl_cons, List.foldl_cons, hidem]
  have dedup : ∀ (zs : List α) c, zs.dedup.foldl F c = zs.foldl F c := by
    intro zs
    induction zs with
    | nil => intro c; rfl
    | cons x zs ih =>
      intro c
      by_cases hx : x ∈ zs
      · rw [List.dedup_cons_of_mem hx, ih, List.foldl_cons, absorb x zs hx]
      · rw [List.dedup_cons_of_notMem hx, List.foldl_cons, List.foldl_cons, ih]
  have hp : xs.dedup.Perm ys.dedup :=
    (List.perm_ext_iff_of_nodup (List.nodup_dedup xs) (List.nodup_dedup ys)).mpr
      fun a => by simp only [List.mem_dedup, h]
  rw [← dedup xs, ← dedup ys, hp.foldl_eq' (fun _ _ _ _ z => hcomm z _ _)]

namespace DocBits

variable {x y : Nat} {ys : List Nat}

theorem insertSorted_of_lt (h : x < y) : insertSorted x (y :: ys) = x :: y :: ys := by
  simp [insertSorted, h]

theorem insertSorted_self : insertSorted y (y :: ys) = y :: ys := by
  simp [insertSorted]

theorem insertSorted_of_gt (h : y < x) : insertSorted x (y :: ys) = y :: insertSorted x ys := by
  simp [insertSorted, Nat.not_lt.mpr h.le, Nat.ne_of_gt h]

theorem insertSorted_comm_of_lt {a b : Nat} (hab : a < b) :
    ∀ xs : List Nat, insertSorted a (insertSorted b xs) = insertSorted b (insertSorted a xs)
  | [] => by
    rw [insertSorted, insertSorted, insertSorted_of_lt hab, insertSorted_of_gt hab, insertSorted]
  | y :: ys => by
    have ih := insertSorted_comm_of_lt hab ys
    -- where the head stands against the two ids decides where each lands
    obtain hy | rfl | hy | rfl | hy : y < a ∨ y = a ∨ (a < y ∧ y < b) ∨ y = b ∨ b < y := by omega
    all_goals simp (disch := omega) only [insertSorted_of_lt, insertSorted_self,
      insertSorted_of_gt, ih]

/-- Two different ids go into a list in either order to the same places: each lands before the
first member above it, wherever the other landed. -/
theorem insertSorted_comm {a b : Nat} (hab : a ≠ b) (xs : List Nat) :
    insertSorted a (insertSorted b xs) = insertSorted b (insertSorted a xs) := by
  rcases Nat.lt_or_gt_of_ne hab with h | h
  · exact insertSorted_comm_of_lt h xs
  · exact (insertSorted_comm_of_lt h xs).symm

/-- Marking two different ids gives the same set in either order. -/
theorem set_comm (m : DocBits) {i j : Nat} (hij : i ≠ j) : (m.set i).set j = (m.set j).set i := by
  simp only [set, insertSorted_comm (Ne.symm hij)]

end DocBits

theorem toNat_succSat_le (g : GroupId) : (succSat g).toNat ≤ g.toNat + 1 := by
  by_cases hg : g = lastGroup
  · subst hg
    simp [succSat, lastGroup]
  · rw [toNat_succSat hg]

namespace Lookup

variable {l : Lookup}

/-- Lookups with the same groups and the same bound are equal. -/
theorem ext {l₁ l₂ : Lookup} (hg : l₁.groups = l₂.groups) (hn : l₁.numGroups = l₂.numGroups) :
    l₁ = l₂ := by
  cases l₁
  cases l₂
  congr

/-- Raising the bound past a group leaves the larger of the bound and the group's successor. -/
theorem toNat_numGroups_bump (l : Lookup) (g : GroupId) :
    (l.bump g).numGroups.toNat = max l.numGroups.toNat (succSat g).toNat := by
  have hle := UInt32.le_iff_toNat_le.mp (le_succSat g)
  have hsucc := toNat_succSat_le g
  unfold bump
  split
  · rename_i h
    have := UInt32.le_iff_toNat_le.mp h
    simp only
    omega
  · rename_i h
    have := UInt32.lt_iff_toNat_lt.mp (UInt32.not_le.mp h)
    omega

theorem toNat_numGroups_set (d : DocId) (g : GroupId) :
    (l.set d g).numGroups.toNat = max l.numGroups.toNat (succSat g).toNat :=
  toNat_numGroups_bump _ g

theorem numGroups_le_set (d : DocId) (g : GroupId) : l.numGroups ≤ (l.set d g).numGroups := by
  rw [UInt32.le_iff_toNat_le, toNat_numGroups_set]
  omega

theorem lt_numGroups_set (d : DocId) {g : GroupId} (hg : g ≠ lastGroup) :
    g < (l.set d g).numGroups := by
  rw [UInt32.lt_iff_toNat_lt, toNat_numGroups_set, toNat_succSat hg]
  omega

/-- Moving two different documents gives the same lookup in either order: each writes its own
slot, and the bound ends at the larger of the two raises. -/
theorem set_comm {d e : DocId} (hde : d ≠ e) (p q : GroupId) :
    (l.set d p).set e q = (l.set e q).set d p := by
  have hne : d.toNat ≠ e.toNat := fun h => hde (UInt32.toNat_inj.mp h)
  have hgroups : ((l.set d p).set e q).groups = ((l.set e q).set d p).groups := by
    simp only [groups_set]
    exact Array.setIfInBounds_comm _ _ hne
  have hbound : ((l.set d p).set e q).numGroups = ((l.set e q).set d p).numGroups := by
    apply UInt32.toNat_inj.mp
    simp only [toNat_numGroups_set]
    omega
  exact ext hgroups hbound

/-! ### One visit -/

section Visit

variable {table : RuleTable Rule} {f : Field} {t : Term}

/-- The group a visit moves a document to: the positive group of its group's rule, when the
document is not marked yet and the rule fires for the term. -/
def firedGroup (l : Lookup) (marked : DocBits) (table : RuleTable Rule) (f : Field) (t : Term)
    (d : DocId) : Option GroupId :=
  if marked.get d.toNat then none
  else (table.get? (l.get d)).bind fun r => if r.condition.fires f t then some r.positive else none

/-- The visit of one document: it moves to its fired group and is marked, or nothing changes. -/
def conditionStep (table : RuleTable Rule) (f : Field) (t : Term) (acc : Lookup × DocBits)
    (d : DocId) : Lookup × DocBits :=
  match acc.1.firedGroup acc.2 table f t d with
  | some p => (acc.1.set d p, acc.2.set d.toNat)
  | none => acc

/-- Applying the conditions visits the listed documents in order. -/
theorem applyConditions_eq_foldl (l : Lookup) (docs : List DocId) (marked : DocBits)
    (table : RuleTable Rule) (f : Field) (t : Term) :
    l.applyConditions docs marked table f t = docs.foldl (conditionStep table f t) (l, marked) := by
  unfold applyConditions
  congr 1
  funext acc d
  obtain ⟨l, m⟩ := acc
  simp only [conditionStep, firedGroup]
  by_cases hm : m.get d.toNat = true
  · simp [hm]
  · cases hr : table.get? (l.get d) with
    | none => simp [hm]
    | some r => by_cases hf : r.condition.fires f t = true <;> simp [hm, hf]

theorem conditionStep_of_fired {acc : Lookup × DocBits} {d : DocId} {p : GroupId}
    (h : acc.1.firedGroup acc.2 table f t d = some p) :
    conditionStep table f t acc d = (acc.1.set d p, acc.2.set d.toNat) := by
  simp [conditionStep, h]

theorem conditionStep_of_unfired {acc : Lookup × DocBits} {d : DocId}
    (h : acc.1.firedGroup acc.2 table f t d = none) : conditionStep table f t acc d = acc := by
  simp [conditionStep, h]

/-- What a visit does to a document reads only the document's group and mark. -/
theorem firedGroup_congr {l l' : Lookup} {m m' : DocBits} {d : DocId} (hg : l'.get d = l.get d)
    (hm : m'.get d.toNat = m.get d.toNat) :
    l'.firedGroup m' table f t d = l.firedGroup m table f t d := by
  simp only [firedGroup, hg, hm]

/-- A marked document is never moved. -/
theorem firedGroup_of_marked {m : DocBits} {d : DocId} (h : m.get d.toNat = true) :
    l.firedGroup m table f t d = none := by
  simp [firedGroup, h]

/-- A visit of one document leaves every other document's group and mark. -/
theorem conditionStep_frame (acc : Lookup × DocBits) {d e : DocId} (hde : e ≠ d) :
    (conditionStep table f t acc d).1.get e = acc.1.get e ∧
      (conditionStep table f t acc d).2.get e.toNat = acc.2.get e.toNat := by
  cases h : acc.1.firedGroup acc.2 table f t d with
  | none => simp [conditionStep_of_unfired h]
  | some p =>
    have hne : e.toNat ≠ d.toNat := fun h => hde (UInt32.toNat_inj.mp h)
    rw [conditionStep_of_fired h]
    exact ⟨get_set_of_ne hde p, DocBits.get_set_of_ne _ hne⟩

theorem firedGroup_conditionStep_of_ne (acc : Lookup × DocBits) {d e : DocId} (hde : e ≠ d) :
    (conditionStep table f t acc d).1.firedGroup (conditionStep table f t acc d).2 table f t e =
      acc.1.firedGroup acc.2 table f t e :=
  firedGroup_congr (conditionStep_frame acc hde).1 (conditionStep_frame acc hde).2

/-- A second visit of a document changes nothing: the first either moved and marked it or found
nothing to do. -/
theorem conditionStep_idem (acc : Lookup × DocBits) (d : DocId) :
    conditionStep table f t (conditionStep table f t acc d) d = conditionStep table f t acc d := by
  cases h : acc.1.firedGroup acc.2 table f t d with
  | none => rw [conditionStep_of_unfired h, conditionStep_of_unfired h]
  | some p =>
    rw [conditionStep_of_fired h]
    exact conditionStep_of_unfired (firedGroup_of_marked (DocBits.get_set_self _ _))

/-- Visits of two documents commute. -/
theorem conditionStep_comm (acc : Lookup × DocBits) (d e : DocId) :
    conditionStep table f t (conditionStep table f t acc d) e =
      conditionStep table f t (conditionStep table f t acc e) d := by
  by_cases hde : d = e
  · rw [hde]
  have hed : e ≠ d := Ne.symm hde
  have hne : d.toNat ≠ e.toNat := fun h => hde (UInt32.toNat_inj.mp h)
  -- each document's move is decided before the other's visit and is not changed by it
  cases hfd : acc.1.firedGroup acc.2 table f t d with
  | none =>
    rw [conditionStep_of_unfired hfd,
      conditionStep_of_unfired ((firedGroup_conditionStep_of_ne acc hde).trans hfd)]
  | some p =>
    cases hfe : acc.1.firedGroup acc.2 table f t e with
    | none =>
      rw [conditionStep_of_unfired hfe,
        conditionStep_of_unfired ((firedGroup_conditionStep_of_ne acc hed).trans hfe)]
    | some q =>
      rw [conditionStep_of_fired ((firedGroup_conditionStep_of_ne acc hed).trans hfe),
        conditionStep_of_fired ((firedGroup_conditionStep_of_ne acc hde).trans hfd),
        conditionStep_of_fired hfd, conditionStep_of_fired hfe]
      simp only [set_comm hde, DocBits.set_comm _ hne]

@[simp] theorem size_conditionStep (acc : Lookup × DocBits) (d : DocId) :
    (conditionStep table f t acc d).1.size = acc.1.size := by
  cases h : acc.1.firedGroup acc.2 table f t d with
  | none => rw [conditionStep_of_unfired h]
  | some p => rw [conditionStep_of_fired h, size_set]

theorem numGroups_le_conditionStep (acc : Lookup × DocBits) (d : DocId) :
    acc.1.numGroups ≤ (conditionStep table f t acc d).1.numGroups := by
  cases h : acc.1.firedGroup acc.2 table f t d with
  | none => rw [conditionStep_of_unfired h]; exact UInt32.le_refl _
  | some p => rw [conditionStep_of_fired h]; exact numGroups_le_set d p

/-- A document a pass has moved to `p` and marked, with the bound past `p`. -/
structure Settled (d : DocId) (p : GroupId) (acc : Lookup × DocBits) : Prop where
  get_eq : acc.1.get d = p
  marked : acc.2.get d.toNat = true
  lt : p < acc.1.numGroups

/-- The visit that moves a document of the lookup settles it, unless the bound saturates. -/
theorem settled_conditionStep {acc : Lookup × DocBits} {d : DocId} {p : GroupId}
    (h : acc.1.firedGroup acc.2 table f t d = some p) (hd : d.toNat < acc.1.size)
    (hp : p ≠ lastGroup) : Settled d p (conditionStep table f t acc d) := by
  rw [conditionStep_of_fired h]
  exact ⟨get_set_self hd p, DocBits.get_set_self _ _, lt_numGroups_set d hp⟩

/-- A settled document stays settled: a visit of it finds it marked, a visit of another leaves
it and only raises the bound. -/
theorem Settled.step {acc : Lookup × DocBits} {d : DocId} {p : GroupId} (h : Settled d p acc)
    (e : DocId) : Settled d p (conditionStep table f t acc e) := by
  by_cases hed : d = e
  · subst hed
    rwa [conditionStep_of_unfired (firedGroup_of_marked h.marked)]
  · exact ⟨(conditionStep_frame acc hed).1.trans h.get_eq,
      (conditionStep_frame acc hed).2.trans h.marked,
      UInt32.lt_of_lt_of_le h.lt (numGroups_le_conditionStep acc e)⟩

end Visit

/-! ### A pass over a list -/

section Pass

variable {table : RuleTable Rule} {f : Field} {t : Term}

/-- A pass gives the same result for any two lists of the same documents, whatever their order
and repeats. -/
theorem foldl_conditionStep_congr {docs docs' : List DocId} (h : ∀ d, d ∈ docs' ↔ d ∈ docs)
    (acc : Lookup × DocBits) :
    docs'.foldl (conditionStep table f t) acc = docs.foldl (conditionStep table f t) acc :=
  foldl_eq_of_mem_iff conditionStep_comm conditionStep_idem h acc

theorem size_foldl_conditionStep (docs : List DocId) (acc : Lookup × DocBits) :
    (docs.foldl (conditionStep table f t) acc).1.size = acc.1.size := by
  induction docs generalizing acc with
  | nil => rfl
  | cons d docs ih => rw [List.foldl_cons, ih, size_conditionStep]

theorem Settled.foldl {acc : Lookup × DocBits} {d : DocId} {p : GroupId} (h : Settled d p acc)
    (docs : List DocId) : Settled d p (docs.foldl (conditionStep table f t) acc) := by
  induction docs generalizing acc with
  | nil => exact h
  | cons e docs ih => exact ih (h.step e)

/-- A listed document that the pass finds to move is settled in its fired group: its first visit
can be taken to come first, and nothing after undoes it. -/
theorem settled_foldl {docs : List DocId} {acc : Lookup × DocBits} {d : DocId} {p : GroupId}
    (hmem : d ∈ docs) (h : acc.1.firedGroup acc.2 table f t d = some p)
    (hd : d.toNat < acc.1.size) (hp : p ≠ lastGroup) :
    Settled d p (docs.foldl (conditionStep table f t) acc) := by
  have hsame : ∀ e, e ∈ d :: docs ↔ e ∈ docs := fun e => by
    simp only [List.mem_cons, or_iff_right_iff_imp]
    rintro rfl
    exact hmem
  rw [← foldl_conditionStep_congr hsame, List.foldl_cons]
  exact (settled_conditionStep h hd hp).foldl docs

/-- A document that is not listed, or that its visits do not move, keeps its group and its
mark. -/
theorem foldl_conditionStep_keeps {docs : List DocId} {acc : Lookup × DocBits} {d : DocId}
    (h : d ∉ docs ∨ acc.1.firedGroup acc.2 table f t d = none) :
    (docs.foldl (conditionStep table f t) acc).1.get d = acc.1.get d ∧
      (docs.foldl (conditionStep table f t) acc).2.get d.toNat = acc.2.get d.toNat := by
  induction docs generalizing acc with
  | nil => exact ⟨rfl, rfl⟩
  | cons e docs ih =>
    -- the visit of `e` keeps `d`'s group and mark, so the hypothesis passes on to the rest
    have hkeep : (conditionStep table f t acc e).1.get d = acc.1.get d ∧
        (conditionStep table f t acc e).2.get d.toNat = acc.2.get d.toNat := by
      by_cases hde : d = e
      · subst hde
        have hnone : acc.1.firedGroup acc.2 table f t d = none := by simpa using h
        rw [conditionStep_of_unfired hnone]
        exact ⟨rfl, rfl⟩
      · exact conditionStep_frame acc hde
    have h' : d ∉ docs ∨ (conditionStep table f t acc e).1.firedGroup
        (conditionStep table f t acc e).2 table f t d = none := by
      rw [firedGroup_congr hkeep.1 hkeep.2]
      exact h.imp_left fun hn hm => hn (List.mem_cons_of_mem e hm)
    rw [List.foldl_cons, (ih h').1, (ih h').2]
    exact hkeep

/-- Applying a rule table's conditions to listed documents moves each unmarked one whose group has a
rule firing for the term to the rule's positive group, once, and marks it; every other document
keeps its group and mark. The outcome depends only on which documents are listed, not on their order
or repeats. -/
theorem applyConditions_moves_once {rules : List Rule} {n : UInt32} {table : RuleTable Rule}
    (htable : RuleTable.build rules n = .ok table) (l : Lookup) (docs : List DocId)
    (marked : DocBits) (f : Field) (t : Term) :
    (l.applyConditions docs marked table f t).1.size = l.size ∧
    (∀ d ∈ docs, ∀ r, marked.get d.toNat = false → table.get? (l.get d) = some r →
      r.condition.fires f t = true →
      (l.applyConditions docs marked table f t).1.get d = r.positive ∧
      (l.applyConditions docs marked table f t).2.get d.toNat = true ∧
      r.positive < (l.applyConditions docs marked table f t).1.numGroups) ∧
    (∀ d : DocId, (d ∈ docs → marked.get d.toNat = false → ∀ r, table.get? (l.get d) = some r →
        r.condition.fires f t = false) →
      (l.applyConditions docs marked table f t).1.get d = l.get d ∧
      (l.applyConditions docs marked table f t).2.get d.toNat = marked.get d.toNat) ∧
    ∀ docs' : List DocId, (∀ d, d ∈ docs' ↔ d ∈ docs) →
      l.applyConditions docs' marked table f t = l.applyConditions docs marked table f t := by
  have hc := RuleTable.checked_build htable
  simp only [applyConditions_eq_foldl]
  refine ⟨size_foldl_conditionStep docs _, fun d hd r hm hr hf => ?_, fun d hkeep => ?_,
    fun docs' h => foldl_conditionStep_congr h _⟩
  · -- a ruled group is not 0, so the document lies in the lookup; a checked positive group is
    -- below `maxNumGroups`, so the bound does not saturate at it
    have hfired : l.firedGroup marked table f t d = some r.positive := by
      simp [firedGroup, hm, hr, hf]
    have hin : d.toNat < l.size := by
      by_contra hout
      rw [get_of_size_le (Nat.le_of_not_lt hout)] at hr
      exact (hc.get? hr).1 rfl
    have hp : r.positive ≠ lastGroup :=
      ne_lastGroup_of_lt ((hc.get? hr).2 r.positive (by simp [Targeted.destinations]))
    have hs : Settled d r.positive (docs.foldl (conditionStep table f t) (l, marked)) :=
      settled_foldl hd hfired hin hp
    exact ⟨hs.get_eq, hs.marked, hs.lt⟩
  · apply foldl_conditionStep_keeps
    by_cases hd : d ∈ docs
    · refine .inr ?_
      cases hm : marked.get d.toNat
      · cases hr : table.get? (l.get d) with
        | none => simp [firedGroup, hm, hr]
        | some r => simp [firedGroup, hm, hr, hkeep hd hm r hr]
      · exact firedGroup_of_marked hm
    · exact .inl hd

/-- Document 0 is listed twice and its rule sends it from group 1 to group 7, whose own rule fires
for the same term: it is moved once, to 7, and marked. -/
theorem applyConditions_moves_chain_once :
    let rules : List Rule := [⟨1, .intEq "f" 2, 6, 7⟩, ⟨7, .intEq "f" 2, 4, 5⟩]
    let table : RuleTable Rule :=
      { entries := [(1, ⟨1, .intEq "f" 2, 6, 7⟩), (7, ⟨7, .intEq "f" 2, 4, 5⟩)]
        fields := [.int "f"] }
    let out := Lookup.applyConditions ⟨#[1, 7], 8⟩ [0, 1, 0] (DocBits.empty 2) table (.int "f")
      (.int 2)
    RuleTable.build rules 8 = .ok table ∧
      out.1.get 0 = 7 ∧ out.2.get (0 : DocId).toNat = true ∧ (7 : GroupId) < out.1.numGroups := by
  intro rules table out
  have htable : RuleTable.build rules 8 = .ok table := rfl
  exact ⟨htable, (applyConditions_moves_once htable ⟨#[1, 7], 8⟩ [0, 1, 0] (DocBits.empty 2)
    (.int "f") (.int 2)).2.1 0 (by simp) ⟨1, .intEq "f" 2, 6, 7⟩ rfl rfl rfl⟩

/- Without the mark, the second visit of document 0 would move it on to 5. -/
example : (Lookup.applyConditions ⟨#[1, 7], 8⟩ [0, 1, 0] (DocBits.empty 2)
    { entries := [(1, ⟨1, .intEq "f" 2, 6, 7⟩), (7, ⟨7, .intEq "f" 2, 4, 5⟩)], fields := [.int "f"] }
    (.int "f") (.int 2)).1 = ⟨#[7, 5], 8⟩ := by
  decide

end Pass

end Lookup

end GroupStats
