import GroupStats.Proofs.Core.TermOrder
import GroupStats.Proofs.Group.Filters

/-!
# Splits of a target group by the terms of a field

A term-set split sends each document of its target to the positive group when it holds, in the
field, one of the given terms, and to the negative group otherwise; a random split does the same
with the terms whose salted fraction lies below its probability (`splitTo` over `Shard.Holds`).
A threshold split sends each document of its target to the result group at the place of the first
threshold above the least salted fraction of the document's terms, taken in the field's order
from 1 (`Shard.leastFraction`), and to the group after the last threshold when none is
(`thresholdSplit`).

The splits compute this otherwise. The term-set split sorts its terms, drops repeats and looks
each term of the field up by binary search (`Term.search_sortedSet`); the two splits by one test
mark, batch by batch, the documents of the terms that pass (`marking_spec`) and then rewrite the
target by the marks. The threshold split keeps a running least per document of the target over
the batches it is seen in; seeing one term twice keeps the least as it is (`keepLeast_idem`), so
the batches do not matter (`foldl_visits_least`). On a bounded lookup of at most `2 ^ 32`
documents each split computes its definition and leaves the bound one past the largest group; a
split given a probability or thresholds outside `[0, 1]`, thresholds out of order or of the wrong
count, or a group at or past `maxNumGroups`, is refused as an invalid argument.
-/

namespace GroupStats

/-! ### Folds that act on one view of their state -/

section Folds

variable {α β γ : Type} {F : β → α → β} (v : β → γ)

/-- A fold whose steps all leave a view of the state leaves it. -/
theorem foldl_keeps_view (hF : ∀ b a, v (F b a) = v b) (xs : List α) (b : β) :
    v (xs.foldl F b) = v b := by
  induction xs generalizing b with
  | nil => rfl
  | cons a xs ih => rw [List.foldl_cons, ih, hF]

variable (P : α → Prop) [DecidablePred P]

/-- A fold whose steps each apply an idempotent map to a view of the state, or leave it, applies
the map once when some step does. -/
theorem foldl_view_idem {k : γ → γ} (hk : ∀ m, k (k m) = k m)
    (hF : ∀ b a, v (F b a) = if P a then k (v b) else v b) (xs : List α) (b : β) :
    v (xs.foldl F b) = if ∃ a ∈ xs, P a then k (v b) else v b := by
  induction xs generalizing b with
  | nil => simp
  | cons a xs ih =>
    rw [List.foldl_cons, ih, hF]
    by_cases ha : P a
    · simp [ha, hk]
    · simp [ha]

/-- A fold whose steps each change a view of the state by a step of their own, or leave it,
changes the view as the fold over the steps that do. -/
theorem foldl_view_filter (k : γ → α → γ) (hF : ∀ b a, v (F b a) = if P a then k (v b) a else v b)
    (xs : List α) (b : β) : v (xs.foldl F b) = (xs.filter fun a => decide (P a)).foldl k (v b) := by
  induction xs generalizing b with
  | nil => rfl
  | cons a xs ih =>
    rw [List.foldl_cons, ih, hF]
    by_cases ha : P a
    · simp [ha]
    · simp [ha]

end Folds

/-- Consecutive pairs of a list all pass a test exactly when the list is a chain of the test. -/
theorem all_zip_tail_iff {α : Type} (r : α × α → Bool) (xs : List α) :
    (xs.zip xs.tail).all r = true ↔ xs.IsChain fun a b => r (a, b) = true := by
  induction xs with
  | nil => simp
  | cons a tl ih =>
    cases tl with
    | nil => simp
    | cons b rest =>
      simp only [List.tail_cons] at ih
      simp [List.isChain_cons_cons, ih]

/-! ### What a document holds -/

namespace Shard

/-- Whether a document holds, in a field, a term that passes a test. -/
def Holds (s : Shard) (f : Field) (test : Term → Prop) (d : DocId) : Prop :=
  ∃ p ∈ s.lists f, d ∈ p.2 ∧ test p.1

instance (s : Shard) (f : Field) (test : Term → Prop) [DecidablePred test] (d : DocId) :
    Decidable (s.Holds f test d) :=
  inferInstanceAs (Decidable (∃ p ∈ s.lists f, d ∈ p.2 ∧ test p.1))

/-- Keeps the running least of the fractions seen: the new one when it lies below the least so
far. -/
def keepLeast (x m : Float) : Float := if x < m then x else m

/-- The least salted fraction of the terms a document holds in a field, the terms taken in the
field's order and the least kept from 1. -/
def leastFraction (s : Shard) (f : Field) (salt : String) (d : DocId) : Float :=
  ((s.lists f).filter fun p => d ∈ p.2).foldl (fun m p => keepLeast (p.1.fraction salt) m) 1.0

variable {s : Shard} {f : Field}

theorem holds_congr {P Q : Term → Prop} (h : ∀ u, P u ↔ Q u) (d : DocId) :
    s.Holds f P d ↔ s.Holds f Q d := by
  simp only [Holds, h]

/-- A document holds a term that passes a test exactly when a scan sees it with such a term,
whatever the batch size. -/
theorem holds_iff_visits (batch : Nat) (P : Term → Prop) (d : DocId) :
    s.Holds f P d ↔ ∃ a ∈ s.visits f batch, P a.1 ∧ d ∈ a.2 := by
  constructor
  · rintro ⟨⟨u, docs⟩, hp, hd, hu⟩
    obtain ⟨ch, hv, hd'⟩ := mem_visits.mpr ⟨docs, hp, hd⟩
    exact ⟨(u, ch), hv, hu, hd'⟩
  · rintro ⟨⟨u, ch⟩, hv, hu, hd⟩
    obtain ⟨docs, hp, hd'⟩ := mem_visits.mp ⟨ch, hv, hd⟩
    exact ⟨(u, docs), hp, hd', hu⟩

/-- Seeing a fraction a second time keeps the least as it is. -/
theorem keepLeast_idem (x m : Float) : keepLeast x (keepLeast x m) = keepLeast x m := by
  unfold keepLeast
  by_cases h : x < m <;> simp [h]

theorem map_keepLeast_idem (x : Float) (o : Option Float) :
    (o.map (keepLeast x)).map (keepLeast x) = o.map (keepLeast x) := by
  cases o <;> simp [keepLeast_idem]

/-- Keeping the least at one slot of an array changes that slot as the running least, and no
other. -/
theorem getElem?_setIfInBounds_least (fr : Array Float) (x : Float) (i j : Nat) :
    (fr.setIfInBounds i (if x < fr.getD i 1.0 then x else fr.getD i 1.0))[j]? =
      if i = j then fr[j]?.map (keepLeast x) else fr[j]? := by
  by_cases hij : i = j
  · subst hij
    rw [Array.getElem?_setIfInBounds_self, if_pos rfl]
    by_cases hi : i < fr.size
    · simp [hi, keepLeast, Array.getD_eq_getD_getElem?]
    · simp [hi]
  · rw [Array.getElem?_setIfInBounds_ne hij, if_neg hij]

/-- A scan that, batch by batch, keeps at a document's slot the least fraction of the terms whose
batch holds the document leaves there the document's least fraction, whatever the batch size. -/
theorem foldl_visits_least {batch : Nat} {salt : String} {d : DocId}
    {G : Array Float → Term × List DocId → Array Float}
    (hG : ∀ fr u ch, (G fr (u, ch))[d.toNat]? =
      if d ∈ ch then fr[d.toNat]?.map (keepLeast (u.fraction salt)) else fr[d.toNat]?)
    {fr : Array Float} (h1 : fr[d.toNat]? = some 1.0) :
    ((s.visits f batch).foldl G fr)[d.toNat]? = some (s.leastFraction f salt d) := by
  rw [visits, List.foldl_flatMap,
    foldl_view_filter (·[d.toNat]?) (fun p : Term × List DocId => d ∈ p.2)
      (fun o p => o.map (keepLeast (p.1.fraction salt))) ?_, h1]
  · exact List.foldl_hom some fun _ _ => rfl
  -- a term's batches together keep its fraction once when one of them holds the document
  rintro fr ⟨u, docs⟩
  dsimp only
  rw [List.foldl_map, foldl_view_idem (·[d.toNat]?) (fun ch => d ∈ ch)
    (k := Option.map (keepLeast (u.fraction salt))) (map_keepLeast_idem _) fun fr ch => hG fr u ch]
  have hmem : (∃ ch ∈ chunks batch docs, d ∈ ch) ↔ d ∈ docs := by
    rw [← List.mem_flatten, flatten_chunks]
  simp only [hmem]

end Shard

/-! ### Splits of a target group -/

namespace Lookup

/-- Where a split of target `t` sends a document `d` of group `g`: a document of the target goes
to `p` when it is selected and to `n` otherwise; every other document stays. -/
def splitTo (t n p : GroupId) (sel : DocId → Prop) [DecidablePred sel] (d : DocId) (g : GroupId) :
    GroupId :=
  if g = t then (if sel d then p else n) else g

/-- Where a threshold split of target `t` sends a document `d` of group `g`: a document of the
target goes to the result group at the place of the first threshold above its least fraction,
and to the one after the last threshold when none is; every other document stays. -/
def thresholdSplit (s : Shard) (f : Field) (salt : String) (t : GroupId) (th : List Float)
    (rs : List GroupId) (d : DocId) (g : GroupId) : GroupId :=
  if g = t then rs.getD ((th.findIdx? fun p => s.leastFraction f salt d < p).getD th.length) noGroup
  else g

section Split

variable {l : Lookup} {s : Shard} {batch : Nat} {f : Field} {t n p : GroupId}

theorem splitTo_settles (hn : n < maxNumGroups) (hp : p < maxNumGroups) (sel : DocId → Prop)
    [DecidablePred sel] (d : DocId) (g : GroupId) : Settles g (splitTo t n p sel d g) := by
  unfold splitTo
  split
  · split
    · exact .inr hp
    · exact .inr hn
  · exact .inl rfl

theorem thresholdSplit_settles {salt : String} {th : List Float} {rs : List GroupId}
    (hrs : ∀ g ∈ rs, g < maxNumGroups) (d : DocId) (g : GroupId) :
    Settles g (thresholdSplit s f salt t th rs d g) := by
  unfold thresholdSplit
  split
  · exact .inr (getD_lt_of_forall hrs _)
  · exact .inl rfl

/-- Marking ids one after another marks exactly those. -/
theorem get_foldl_set (docs : List DocId) (b : DocBits) (j : Nat) :
    (docs.foldl (fun b d => b.set d.toNat) b).get j =
      if ∃ d ∈ docs, d.toNat = j then true else b.get j := by
  refine foldl_view_idem (fun b : DocBits => b.get j) (fun d : DocId => d.toNat = j) (k := fun _ => true)
    (fun _ => rfl) (fun b d => ?_) docs b
  by_cases h : d.toNat = j
  · subst h
    simp
  · simp [h, DocBits.get_set_of_ne _ (Ne.symm h)]

/-- The marks of a scan are the documents that hold, in the field, a term that passes the test,
whatever the batch size; the set is as large as the lookup. -/
theorem marking_spec (l : Lookup) (s : Shard) (batch : Nat) (f : Field) (test : Term → Bool) :
    (l.marking s batch f test).size = l.size ∧
      ∀ d : DocId, (l.marking s batch f test).get d.toNat = true ↔ s.Holds f (test · = true) d := by
  unfold marking
  constructor
  · refine foldl_keeps_view DocBits.size (fun b ⟨u, docs⟩ => ?_) _ _
    dsimp only
    split
    · exact foldl_keeps_view (F := fun b d => b.set d.toNat) DocBits.size (fun _ _ => rfl) docs b
    · rfl
  · intro d
    rw [s.holds_iff_visits batch, foldl_view_idem (fun b : DocBits => b.get d.toNat)
      (fun a : Term × List DocId => test a.1 = true ∧ d ∈ a.2) (k := fun _ => true) (fun _ => rfl)
      (fun b ⟨u, ch⟩ => ?_)]
    · simp [DocBits.empty, DocBits.get]
    -- a batch of a passing term marks its documents
    dsimp only
    by_cases hu : test u = true
    · rw [if_pos hu, get_foldl_set]
      simp only [hu, true_and, UInt32.toNat_inj, exists_eq_right]
    · simp [hu]

/-- A bitset split with two groups below `maxNumGroups` and a set covering the lookup, once
recalculated, sends the documents of the target by their marks. -/
theorem bitSetRegroup_recalculate (hsize : l.size ≤ 2 ^ 32) {bits : DocBits}
    (hb : l.size ≤ bits.size) (hn : n < maxNumGroups) (hp : p < maxNumGroups) :
    ∃ l', l.bitSetRegroup bits t n p = .ok l' ∧
      l'.recalculate = l.moved fun d g => if g = t then (if bits.get d.toNat then p else n) else g := by
  have hc : checkGroups [n, p] = .ok () := checkGroups_eq_ok.mpr (by simp [hn, hp])
  simp only [bitSetRegroup, if_neg (Nat.not_lt.mpr hb), hc, bind, Except.bind, pure, Except.pure]
  refine ⟨_, rfl, recalculate_eq_moved hsize (by simp [size]) fun d hd => ?_⟩
  have hd' : d.toNat < l.groups.size := hd
  simp [get, Array.getD_eq_getD_getElem?, hd']

/-- A split by marks that are exactly the selected documents is the split by the selection. -/
theorem moved_marks {bits : DocBits} {sel : DocId → Prop} [DecidablePred sel]
    (h : ∀ d : DocId, bits.get d.toNat = true ↔ sel d) :
    (l.moved fun d g => if g = t then (if bits.get d.toNat then p else n) else g) =
      l.moved (splitTo t n p sel) := by
  congr 1
  funext d g
  by_cases hd : sel d
  · simp [splitTo, hd, (h d).mpr hd]
  · simp [splitTo, hd, mt (h d).mp hd]

/-- A term-set split with two groups below `maxNumGroups` sends each document of its target by
whether it holds one of the terms in the field, in whatever order and with whatever repeats the
terms are given. -/
theorem termOr_eq (hsize : l.size ≤ 2 ^ 32) (terms : List Term) (hn : n < maxNumGroups)
    (hp : p < maxNumGroups) :
    l.termOr s batch f terms t n p = .ok (l.moved (splitTo t n p (s.Holds f (· ∈ terms)))) := by
  have hc : checkGroups [n, p] = .ok () := checkGroups_eq_ok.mpr (by simp [hn, hp])
  obtain ⟨hsz, hget⟩ := marking_spec l s batch f (Term.search (Term.sortedSet terms))
  obtain ⟨l', hr, hrec⟩ := bitSetRegroup_recalculate (t := t) hsize (Nat.le_of_eq hsz.symm) hn hp
  simp only [termOr, hc, hr, bind, Except.bind, pure, Except.pure, hrec]
  -- the binary search over the sorted terms finds exactly the listed ones
  rw [moved_marks fun d => (hget d).trans (Shard.holds_congr (Term.search_sortedSet terms) d)]

theorem termOr_refused (terms : List Term) (h : maxNumGroups ≤ n ∨ maxNumGroups ≤ p) :
    ∃ fault, l.termOr s batch f terms t n p = .error (.invalidArgument fault) := by
  obtain ⟨g, hc⟩ := RuleTable.checkGroups_refused [n, p] (by rcases h with h | h <;> simp [h])
  exact ⟨.groupTooLarge g, by simp [termOr, hc, bind, Except.bind]⟩

/-- A random split with a probability in `[0, 1]` and two groups below `maxNumGroups` sends each
document of its target by whether it holds a term whose salted fraction lies below the
probability. -/
theorem random_eq (hsize : l.size ≤ 2 ^ 32) (salt : String) {x : Float} (hx₀ : 0.0 ≤ x)
    (hx₁ : x ≤ 1.0) (hn : n < maxNumGroups) (hp : p < maxNumGroups) :
    l.random s batch f salt x t n p =
      .ok (l.moved (splitTo t n p (s.Holds f fun u => u.fraction salt < x))) := by
  have hc : checkGroups [n, p] = .ok () := checkGroups_eq_ok.mpr (by simp [hn, hp])
  obtain ⟨hsz, hget⟩ := marking_spec l s batch f fun u => u.fraction salt < x
  obtain ⟨l', hr, hrec⟩ := bitSetRegroup_recalculate (t := t) hsize (Nat.le_of_eq hsz.symm) hn hp
  simp only [random, hx₀, hx₁, decide_true, Bool.and_self, Bool.not_true, Bool.false_eq_true,
    if_false, hc, hr, bind, Except.bind, pure, Except.pure, hrec]
  rw [moved_marks fun d => (hget d).trans (Shard.holds_congr (fun u => decide_eq_true_iff) d)]

theorem random_refused (salt : String) {x : Float}
    (h : ¬ (0.0 ≤ x ∧ x ≤ 1.0) ∨ maxNumGroups ≤ n ∨ maxNumGroups ≤ p) :
    ∃ fault, l.random s batch f salt x t n p = .error (.invalidArgument fault) := by
  by_cases hx : 0.0 ≤ x ∧ x ≤ 1.0
  · obtain ⟨g, hc⟩ := RuleTable.checkGroups_refused [n, p]
      (by rcases h.resolve_left (not_not.mpr hx) with h | h <;> simp [h])
    exact ⟨.groupTooLarge g, by simp [random, hx.1, hx.2, hc, bind, Except.bind]⟩
  · have hb : (!(decide (0.0 ≤ x) && decide (x ≤ 1.0))) = true := by
      by_cases h₀ : 0.0 ≤ x
      · have h₁ : ¬ x ≤ 1.0 := fun h₁ => hx ⟨h₀, h₁⟩
        simp [h₀, h₁]
      · simp [h₀]
    exact ⟨.probability x, by simp only [random, hb, if_true]; rfl⟩

/-- The threshold check passes exactly on thresholds in `[0, 1]` none of which lies below the one
before it. -/
theorem thresholds_checked (th : List Float) :
    ((!th.all fun p => 0.0 ≤ p && p ≤ 1.0) || !(th.zip th.tail).all fun x => !decide (x.2 < x.1)) =
        false ↔ (∀ x ∈ th, 0.0 ≤ x ∧ x ≤ 1.0) ∧ th.IsChain fun a b => ¬ b < a := by
  rw [Bool.or_eq_false_iff, Bool.not_eq_false', Bool.not_eq_false', List.all_eq_true,
    all_zip_tail_iff]
  simp

/-- The sweep of a threshold split, given the least fraction of each document of the target,
once recalculated, is the split. -/
theorem thresholdSweep_recalculate (hsize : l.size ≤ 2 ^ 32) {salt : String} {th : List Float}
    {rs : List GroupId} {least : Array Float}
    (hleast : ∀ d : DocId, d.toNat < l.size → l.get d = t →
      least.getD d.toNat 1.0 = s.leastFraction f salt d) :
    ((List.range l.size).foldl (fun l i => if l.get i.toUInt32 ≠ t then l else
        l.set i.toUInt32 (rs.getD ((th.findIdx? fun p => least.getD i 1.0 < p).getD th.length)
          noGroup)) l).recalculate =
      l.moved (thresholdSplit s f salt t th rs) := by
  refine sweep_recalculate (fun i g => if g ≠ t then g else
    rs.getD ((th.findIdx? fun p => least.getD i 1.0 < p).getD th.length) noGroup)
    (fun l' i => ?_) hsize fun d hd => ?_
  · -- a document outside the target is written back as it is
    by_cases h : l'.get i.toUInt32 = t
    · simp [h]
    · simp only [h, ne_eq, not_false_eq_true, if_true]
      exact (groups_set_get _).symm
  · by_cases h : l.get d = t
    · simp [thresholdSplit, h, hleast d hd h]
    · simp [thresholdSplit, h]

/-- A threshold split with one more result group than thresholds, thresholds in `[0, 1]` none of
which lies below the one before it, and result groups below `maxNumGroups`, sends each document
of its target by its least fraction, whatever the batch size. -/
theorem randomMulti_eq (hsize : l.size ≤ 2 ^ 32) (salt : String) {th : List Float}
    {rs : List GroupId} (hlen : rs.length = th.length + 1) (hrange : ∀ x ∈ th, 0.0 ≤ x ∧ x ≤ 1.0)
    (hasc : th.IsChain fun a b => ¬ b < a) (hrs : ∀ g ∈ rs, g < maxNumGroups) :
    l.randomMulti s batch f salt t th rs = .ok (l.moved (thresholdSplit s f salt t th rs)) := by
  have hc : checkGroups rs = .ok () := checkGroups_eq_ok.mpr hrs
  unfold randomMulti
  simp only [hlen, ne_eq, not_true_eq_false, if_false, (thresholds_checked th).mpr ⟨hrange, hasc⟩,
    Bool.false_eq_true, hc, bind, Except.bind, pure, Except.pure, Except.ok.injEq]
  refine thresholdSweep_recalculate hsize fun d hd ht => ?_
  rw [Array.getD_eq_getD_getElem?, Shard.foldl_visits_least ?_ (by simp [hd]), Option.getD_some]
  -- one batch keeps the least at the document's slot once when it holds the document
  intro fr u ch
  rw [foldl_view_idem (·[d.toNat]?) (fun d' => d' = d)
    (k := Option.map (Shard.keepLeast (u.fraction salt))) (Shard.map_keepLeast_idem _) ?_]
  · simp
  intro fr d'
  by_cases hd' : d' = d
  · subst hd'
    rw [if_pos ht, Shard.getElem?_setIfInBounds_least, if_pos rfl, if_pos rfl]
  · have hne : d'.toNat ≠ d.toNat := fun e => hd' (UInt32.toNat_inj.mp e)
    rw [if_neg hd']
    split
    · rw [Shard.getElem?_setIfInBounds_least, if_neg hne]
    · rfl

theorem randomMulti_refused (salt : String) {th : List Float} {rs : List GroupId}
    (h : rs.length ≠ th.length + 1 ∨ ¬ ((∀ x ∈ th, 0.0 ≤ x ∧ x ≤ 1.0) ∧
      th.IsChain fun a b => ¬ b < a) ∨ ∃ g ∈ rs, maxNumGroups ≤ g) :
    ∃ fault, l.randomMulti s batch f salt t th rs = .error (.invalidArgument fault) := by
  by_cases hlen : rs.length = th.length + 1
  · by_cases hord : (∀ x ∈ th, 0.0 ≤ x ∧ x ≤ 1.0) ∧ th.IsChain fun a b => ¬ b < a
    · obtain ⟨g, hc⟩ := RuleTable.checkGroups_refused rs
        ((h.resolve_left (not_not.mpr hlen)).resolve_left (not_not.mpr hord))
      exact ⟨.groupTooLarge g, by
        simp [randomMulti, hlen, (thresholds_checked th).mpr hord, hc, bind, Except.bind]⟩
    · have hb := mt (thresholds_checked th).mp hord
      rw [Bool.not_eq_false] at hb
      refine ⟨.thresholdOrder, ?_⟩
      simp only [randomMulti, hlen, ne_eq, not_true_eq_false, if_false, hb, if_true]
      rfl
  · refine ⟨.thresholdCount th.length rs.length, ?_⟩
    simp only [randomMulti, ne_eq, hlen, not_false_eq_true, if_true]
    rfl

end Split

/-! ### The splits together -/

/-- Splits of a target group by a field's terms meet their definitions whatever the batch size: a
term-set, random or threshold split sends each document of its target by the terms it holds, by its
salted fraction, or by the first threshold above its least fraction. Invalid arguments are refused,
leaving an open session and its pool as they were. -/
theorem term_splits_exact (l : Lookup) (s : Shard) (batch : Nat) (f : Field) (t : GroupId)
    (hl : l.Bounded) (hsize : l.size ≤ 2 ^ 32) :
    (∀ terms n p, n < maxNumGroups → p < maxNumGroups →
      l.termOr s batch f terms t n p = .ok (l.moved (splitTo t n p (s.Holds f (· ∈ terms)))) ∧
        (l.moved (splitTo t n p (s.Holds f (· ∈ terms)))).Exact) ∧
    (∀ terms n p, maxNumGroups ≤ n ∨ maxNumGroups ≤ p →
      ∃ fault, l.termOr s batch f terms t n p = .error (.invalidArgument fault)) ∧
    (∀ salt x n p, 0.0 ≤ x → x ≤ 1.0 → n < maxNumGroups → p < maxNumGroups →
      l.random s batch f salt x t n p =
          .ok (l.moved (splitTo t n p (s.Holds f fun u => u.fraction salt < x))) ∧
        (l.moved (splitTo t n p (s.Holds f fun u => u.fraction salt < x))).Exact) ∧
    (∀ salt x n p, ¬ (0.0 ≤ x ∧ x ≤ 1.0) ∨ maxNumGroups ≤ n ∨ maxNumGroups ≤ p →
      ∃ fault, l.random s batch f salt x t n p = .error (.invalidArgument fault)) ∧
    (∀ salt th rs, rs.length = th.length + 1 → (∀ x ∈ th, 0.0 ≤ x ∧ x ≤ 1.0) →
      th.IsChain (fun a b => ¬ b < a) → (∀ g ∈ rs, g < maxNumGroups) →
      l.randomMulti s batch f salt t th rs = .ok (l.moved (thresholdSplit s f salt t th rs)) ∧
        (l.moved (thresholdSplit s f salt t th rs)).Exact) ∧
    (∀ salt th rs, rs.length ≠ th.length + 1 ∨
      ¬ ((∀ x ∈ th, 0.0 ≤ x ∧ x ≤ 1.0) ∧ th.IsChain fun a b => ¬ b < a) ∨
      (∃ g ∈ rs, maxNumGroups ≤ g) →
      ∃ fault, l.randomMulti s batch f salt t th rs = .error (.invalidArgument fault)) ∧
    (∀ (ss : ShardSession) (pool : Memory.Pool) (r : Regroup) (e : Error), ss.lookup = l →
      ss.closed = false → ss.regrouped r = .error e →
        (ShardSession.regroup r).apply (ss, pool) = (.error e, (ss, pool))) := by
  refine ⟨fun terms n p hn hp => ⟨termOr_eq hsize terms hn hp,
      hl.moved_exact fun d g _ => splitTo_settles hn hp _ d g⟩,
    fun terms n p h => termOr_refused terms h,
    fun salt x n p hx₀ hx₁ hn hp => ⟨random_eq hsize salt hx₀ hx₁ hn hp,
      hl.moved_exact fun d g _ => splitTo_settles hn hp _ d g⟩,
    fun salt x n p h => random_refused salt h,
    fun salt th rs hlen hrange hasc hrs => ⟨randomMulti_eq hsize salt hlen hrange hasc hrs,
      hl.moved_exact fun d g _ => thresholdSplit_settles hrs d g⟩,
    fun salt th rs h => randomMulti_refused salt h,
    fun ss pool r e _ hc h => ShardSession.regroup_apply_of_error pool hc h⟩

/-- Splitting group 1 by the terms `7, 5, 7` of an integer field, over groups `1, 1, 2, 0`: the
split computes its definition. -/
theorem splits_by_listed_terms :
    let l := ofGroups #[1, 1, 2, 0]
    let s : Shard := { numDocs := 4, intFields := [("a", [(.int 5, [0]), (.int 6, [1, 2])])] }
    let terms : List Term := [.int 7, .int 5, .int 7]
    l.Bounded ∧ l.size ≤ 2 ^ 32 ∧
      l.termOr s 1 (Field.int "a") terms 1 3 4 =
        .ok (l.moved (splitTo 1 3 4 (s.Holds (Field.int "a") (· ∈ terms)))) := by
  intro l s terms
  have hl : l.Bounded := Exact.bounded (recalculate_exact (l := ⟨#[1, 1, 2, 0], 1⟩)
    (by simp [lastGroup]))
  have hsize : l.size ≤ 2 ^ 32 := by simp [l, ofGroups, recalculate, size]
  have hn : (3 : GroupId) < maxNumGroups := by simp [maxNumGroups]
  have hp : (4 : GroupId) < maxNumGroups := by simp [maxNumGroups]
  exact ⟨hl, hsize, ((term_splits_exact l s 1 (Field.int "a") 1 hl hsize).1 terms 3 4 hn hp).1⟩

/- Document 0 holds 5 and goes to 4; document 1 holds only 6 and goes to 3; the others are not
in the target. -/
example : ((ofGroups #[1, 1, 2, 0]).moved (splitTo 1 3 4
    (Shard.Holds { numDocs := 4, intFields := [("a", [(.int 5, [0]), (.int 6, [1, 2])])] }
      (Field.int "a") (· ∈ [Term.int 7, .int 5, .int 7])))).groups = #[4, 3, 2, 0] := by
  decide

end Lookup

end GroupStats
