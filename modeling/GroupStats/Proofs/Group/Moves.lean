import Mathlib
import GroupStats.Group.Regroup

/-!
# How regroups move documents

A regroup gives each document a new group chosen from the group it held, so what the group
bound and group 0 need to know of a regroup is how a document's group before and after are
related. `Lookup.Moves R l l'` says that `l'` holds the documents of `l` and that each
document's groups before and after stand in `R`. For a relation that holds of a document that
does not move and survives two moves in a row, it is kept by any run of single-document moves,
so the relation of each regroup follows from what one of its steps does.

The stat walks are the exception. They read the groups by position and write them to the
document each position numbers as a 32-bit id, so past `2 ^ 32` documents a position writes
the moved group of another: their relation holds for assignments of at most `2 ^ 32`
documents, and for every assignment what they write is a moved group of a document they read.
-/

namespace GroupStats

/-- A fold keeps a property of the state and the items still to come when each step does. -/
theorem foldl_invariant {α β : Type} {f : β → α → β} (I : β → List α → Prop)
    (hstep : ∀ b x xs, I b (x :: xs) → I (f b x) xs) (xs : List α) (b : β) (h : I b xs) :
    I (xs.foldl f b) [] := by
  induction xs generalizing b with
  | nil => exact h
  | cons x xs ih => exact ih (f b x) (hstep b x xs h)

/-- Cutting a list into pieces and joining them gives it back. -/
theorem flatten_chunks {α : Type} (n : Nat) (xs : List α) : (chunks n xs).flatten = xs := by
  fun_induction chunks n xs with
  | case1 => rfl
  | case2 x rest k ih => rw [List.flatten_cons, ih, List.take_append_drop]

/-- A computation that succeeded ran its first part successfully and continued from there. -/
theorem bind_eq_ok {α β : Type} {x : Except Error α} {f : α → Except Error β} {b : β} :
    x >>= f = .ok b ↔ ∃ a, x = .ok a ∧ f a = .ok b := by
  cases x <;> simp [bind, Except.bind]

/-- Checking destination groups succeeds exactly when every one lies below the group bound. -/
theorem checkGroups_eq_ok {gs : List GroupId} :
    checkGroups gs = .ok () ↔ ∀ g ∈ gs, g < maxNumGroups := by
  unfold checkGroups
  split
  · rename_i g hg
    simp only [reduceCtorEq, false_iff]
    intro hall
    have hge := List.find?_some hg
    have hlt := hall g (List.mem_of_find?_eq_some hg)
    simp only [ge_iff_le, decide_eq_true_eq] at hge
    exact absurd hlt (UInt32.not_lt.mpr hge)
  · rename_i hg
    simpa [List.find?_eq_none] using hg

namespace RuleTable

theorem mem_insertEntry {ρ : Type} {e x : GroupId × ρ} {xs : List (GroupId × ρ)}
    (h : e ∈ insertEntry x xs) : e = x ∨ e ∈ xs := by
  induction xs with
  | nil => simpa [insertEntry] using h
  | cons y ys ih =>
    simp only [insertEntry] at h
    split at h
    · simpa using h
    · rcases List.mem_cons.mp h with rfl | h
      · exact .inr (List.mem_cons_self ..)
      · exact (ih h).imp_right (List.mem_cons_of_mem y)

variable {ρ : Type} [Targeted ρ] {t t' : RuleTable ρ}

/-- Every rule of the table is for a group other than 0 and moves documents only below the
group bound. -/
def Checked (t : RuleTable ρ) : Prop :=
  ∀ e ∈ t.entries, e.1 ≠ noGroup ∧ ∀ d ∈ Targeted.destinations e.2, d < maxNumGroups

/-- Adding a rule keeps a table checked: a rule that is kept was checked on the way in. -/
theorem Checked.add {n : UInt32} {r : ρ} (ht : t.Checked) (h : add n t r = .ok t') : t'.Checked := by
  unfold RuleTable.add at h
  obtain ⟨_, -, h⟩ := bind_eq_ok.mp h
  obtain ⟨_, hc, h⟩ := bind_eq_ok.mp h
  dsimp only at h
  split at h
  · cases h
    exact ht
  · rename_i hg
    split at h
    · cases h
      exact ht
    · cases h
      intro e he
      rcases mem_insertEntry he with rfl | he
      · exact ⟨fun h0 => hg (.inl h0), checkGroups_eq_ok.mp hc⟩
      · exact ht e he

theorem checked_build {rules : List ρ} {n : UInt32} (h : build rules n = .ok t) : t.Checked := by
  unfold build at h
  suffices ∀ (acc : RuleTable ρ), acc.Checked → rules.foldlM (add n) acc = .ok t → t.Checked from
    this {} (fun _ he => by cases he) h
  clear h
  induction rules with
  | nil => intro acc hacc h; cases h; exact hacc
  | cons r rs ih =>
    intro acc hacc h
    rw [List.foldlM_cons] at h
    obtain ⟨acc', h₁, h⟩ := bind_eq_ok.mp h
    exact ih acc' (hacc.add h₁) h

/-- The rule a checked table gives a group is for a group other than 0 and moves documents only
below the bound. -/
theorem Checked.get? (ht : t.Checked) {g : GroupId} {r : ρ} (h : t.get? g = some r) :
    g ≠ noGroup ∧ ∀ d ∈ Targeted.destinations r, d < maxNumGroups := by
  obtain ⟨e, he, rfl⟩ := Option.map_eq_some_iff.mp h
  have hg := List.find?_some he
  simp only [beq_iff_eq] at hg
  subst hg
  exact ht e (List.mem_of_find?_eq_some he)

end RuleTable

namespace Lookup

/-- `l'` holds the documents of `l`, and each document's groups before and after stand in
`R`. -/
structure Moves (R : GroupId → GroupId → Prop) (l l' : Lookup) : Prop where
  size_eq : l'.size = l.size
  rel : ∀ (i : Nat) (g h : GroupId), l.groups[i]? = some g → l'.groups[i]? = some h → R g h

section Moves

variable {R : GroupId → GroupId → Prop} {l l' l'' : Lookup}

theorem Moves.of_groups_eq [Std.Refl R] (h : l'.groups = l.groups) : Moves R l l' where
  size_eq := by simp [size, h]
  rel i g g' hg hg' := by
    rw [h, hg] at hg'
    cases hg'
    exact refl_of R g

theorem Moves.refl [Std.Refl R] (l : Lookup) : Moves R l l := .of_groups_eq rfl

theorem Moves.trans [IsTrans GroupId R] (h₁ : Moves R l l') (h₂ : Moves R l' l'') :
    Moves R l l'' where
  size_eq := h₂.size_eq.trans h₁.size_eq
  rel i g g'' hg hg'' := by
    -- the document sits in `l'` too, since sizes agree
    have hi : i < l'.groups.size := by
      have := h₁.size_eq
      have := (Array.getElem?_eq_some_iff.mp hg).1
      simp only [size] at *
      omega
    exact trans_of R (h₁.rel i g _ hg (Array.getElem?_eq_getElem hi))
      (h₂.rel i _ g'' (Array.getElem?_eq_getElem hi) hg'')

/-- A run of steps each of which moves documents as `R` allows moves them as `R` allows. -/
theorem Moves.foldl [Std.Refl R] [IsTrans GroupId R] {α β : Type} (view : β → Lookup)
    {f : β → α → β} (hf : ∀ b x, Moves R (view b) (view (f b x))) (xs : List α) (b : β) :
    Moves R (view b) (view (xs.foldl f b)) := by
  induction xs generalizing b with
  | nil => exact .refl _
  | cons x xs ih => exact (hf b x).trans (ih (f b x))

/-- The same, for a run whose result is named. -/
theorem Moves.of_foldl_eq [Std.Refl R] [IsTrans GroupId R] {α β : Type} (view : β → Lookup)
    {f : β → α → β} {xs : List α} {b c : β} (hf : ∀ b x, Moves R (view b) (view (f b x)))
    (h : xs.foldl f b = c) : Moves R (view b) (view c) :=
  h ▸ Moves.foldl view hf xs b

/-- Every group held after a run is related to a group held before. -/
theorem Moves.exists_mem {g : GroupId} (h : Moves R l l') (hg : g ∈ l'.groups) :
    ∃ g₀ ∈ l.groups, R g₀ g := by
  obtain ⟨i, hi⟩ := Array.mem_iff_getElem?.mp hg
  have hlt : i < l.groups.size := by
    have := h.size_eq
    have := (Array.getElem?_eq_some_iff.mp hi).1
    simp only [size] at *
    omega
  exact ⟨l.groups[i], Array.getElem_mem hlt, h.rel i _ _ (Array.getElem?_eq_getElem hlt) hi⟩

/-- A related pair of groups for every document. -/
theorem Moves.get [Std.Refl R] (h : Moves R l l') (d : DocId) : R (l.get d) (l'.get d) := by
  simp only [Lookup.get, Array.getD_eq_getD_getElem?]
  by_cases hd : d.toNat < l.groups.size
  · have hd' : d.toNat < l'.groups.size := by have := h.size_eq; simp only [size] at this; omega
    rw [Array.getElem?_eq_getElem hd, Array.getElem?_eq_getElem hd']
    exact h.rel _ _ _ (Array.getElem?_eq_getElem hd) (Array.getElem?_eq_getElem hd')
  · have hd' : ¬ d.toNat < l'.groups.size := by have := h.size_eq; simp only [size] at this; omega
    rw [Array.getElem?_eq_none (by omega), Array.getElem?_eq_none (by omega)]
    exact refl_of R _

@[simp] theorem groups_bump (g : GroupId) : (l.bump g).groups = l.groups := by
  unfold bump
  split <;> rfl

@[simp] theorem groups_set (d : DocId) (g : GroupId) :
    (l.set d g).groups = l.groups.setIfInBounds d.toNat g := by
  simp [set]

@[simp] theorem groups_recalculate : l.recalculate.groups = l.groups := rfl

@[simp] theorem size_set (d : DocId) (g : GroupId) : (l.set d g).size = l.size := by
  simp [size]

theorem moves_bump [Std.Refl R] (g : GroupId) : Moves R l (l.bump g) := .of_groups_eq (by simp)

theorem moves_recalculate [Std.Refl R] : Moves R l l.recalculate := .of_groups_eq rfl

/-- Moving one document is allowed when its move is. -/
theorem moves_set [Std.Refl R] {d : DocId} {g : GroupId} (h : R (l.get d) g) :
    Moves R l (l.set d g) := by
  refine ⟨by simp, fun i a b ha hb => ?_⟩
  simp only [groups_set, Array.getElem?_setIfInBounds] at hb
  split at hb
  · subst i
    rw [if_pos (Array.getElem?_eq_some_iff.mp ha).1] at hb
    cases hb
    simpa [get, Array.getD_eq_getD_getElem?, ha] using h
  · rw [ha] at hb
    cases hb
    exact refl_of R a

end Moves

section Batch

variable {l : Lookup} {docs : List DocId} {groups : List GroupId}

@[simp] theorem size_batchSet : (l.batchSet docs groups).size = l.size := by
  unfold batchSet
  generalize docs.zip groups = ps
  induction ps generalizing l with
  | nil => rfl
  | cons p ps ih => rw [List.foldl_cons, ih, size_set]

/-- A batch leaves every position that none of its documents numbers. -/
theorem getElem?_batchSet_of_ne {j : Nat} (h : ∀ p ∈ docs.zip groups, p.1.toNat ≠ j) :
    (l.batchSet docs groups).groups[j]? = l.groups[j]? := by
  unfold batchSet
  generalize docs.zip groups = ps at h
  induction ps generalizing l with
  | nil => rfl
  | cons p ps ih =>
    rw [List.foldl_cons, ih (fun q hq => h q (List.mem_cons_of_mem p hq))]
    obtain ⟨d, g⟩ := p
    simp only [groups_set]
    exact Array.getElem?_setIfInBounds_ne (h _ (List.mem_cons_self ..))

/-- A position after a batch holds what it held, or a group the batch wrote to it. -/
theorem getElem?_batchSet {j : Nat} {g : GroupId} (h : (l.batchSet docs groups).groups[j]? = some g) :
    l.groups[j]? = some g ∨ ∃ p ∈ docs.zip groups, p.1.toNat = j ∧ p.2 = g := by
  unfold batchSet at h
  generalize docs.zip groups = ps at h ⊢
  induction ps generalizing l with
  | nil => exact .inl h
  | cons p ps ih =>
    obtain ⟨d, e⟩ := p
    rw [List.foldl_cons] at h
    rcases ih h with h | ⟨q, hq, hqj, hqg⟩
    · dsimp only at h
      simp only [groups_set, Array.getElem?_setIfInBounds] at h
      split at h
      · rename_i hdj
        split at h
        · exact .inr ⟨(d, e), List.mem_cons_self .., hdj, Option.some.inj h⟩
        · cases h
      · exact .inl h
    · exact .inr ⟨q, List.mem_cons_of_mem _ hq, hqj, hqg⟩

end Batch

/-! ### Stat walks -/

section Walk

variable {l lc : Lookup} {stat : StatColumn} {F : GroupId × Int64 → GroupId}

/-- A pair of a batch of a stat walk is a position's document with the rewrite of the group and
value read there. -/
theorem mem_zip_walk {x : List Nat} {g : Nat → GroupId} {c : DocId → Int64}
    {q : DocId × GroupId} (h : q ∈ (x.map Nat.toUInt32).zip (((x.map g).zip
      ((x.map Nat.toUInt32).map c)).map F)) :
    ∃ k ∈ x, q = (k.toUInt32, F (g k, c k.toUInt32)) := by
  induction x with
  | nil => simp at h
  | cons k x ih =>
    simp only [List.map_cons, List.zip_cons_cons, List.mem_cons] at h
    rcases h with rfl | h
    · exact ⟨k, List.mem_cons_self .., rfl⟩
    · obtain ⟨k', hk', rfl⟩ := ih h
      exact ⟨k', List.mem_cons_of_mem _ hk', rfl⟩

/-- What a stat walk from `l` that rewrites pairs by `F` keeps between batches, `rest` being the
batches still to come: their positions increase, lie below the size and still hold their old
groups, and every position holds its old group or the rewrite of what was read at a position
numbering it. -/
structure Walking (l : Lookup) (stat : StatColumn) (F : GroupId × Int64 → GroupId)
    (lc : Lookup) (rest : List (List Nat)) : Prop where
  size_eq : lc.size = l.size
  sorted : rest.flatten.Pairwise (· < ·)
  lt_size : ∀ p ∈ rest.flatten, p < l.size
  untouched : ∀ p ∈ rest.flatten, lc.groups[p]? = l.groups[p]?
  drawn : ∀ j g, lc.groups[j]? = some g → l.groups[j]? = some g ∨
    ∃ i < l.size, i.toUInt32.toNat = j ∧ g = F (l.groups.getD i 0, stat.get i.toUInt32)

theorem walking_start (batch : Nat) : Walking l stat F l (chunks batch (List.range l.size)) where
  size_eq := rfl
  sorted := by rw [flatten_chunks]; exact List.pairwise_lt_range
  lt_size := by simp [flatten_chunks]
  untouched _ _ := rfl
  drawn _ _ h := .inl h

/-- One batch keeps the walk's invariant: it reads positions no earlier batch wrote, since a
position numbers a document no later than itself, and writes only below the positions to come. -/
theorem Walking.next {x : List Nat} {xs : List (List Nat)} (hw : Walking l stat F lc (x :: xs)) :
    Walking l stat F (lc.batchSet (x.map Nat.toUInt32)
      (((x.map (lc.groups.getD · 0)).zip (stat.lookup (x.map Nat.toUInt32))).map F)) xs := by
  have hsorted := hw.sorted
  rw [List.flatten_cons, List.pairwise_append] at hsorted
  have hx : ∀ k ∈ x, lc.groups.getD k 0 = l.groups.getD k 0 ∧ k < l.size := fun k hk =>
    ⟨by simp only [Array.getD_eq_getD_getElem?, hw.untouched k (by simp [hk])],
      hw.lt_size k (by simp [hk])⟩
  -- a document numbered by a position of this batch lies before every position to come
  have hbefore : ∀ p ∈ xs.flatten, ∀ q ∈ (x.map Nat.toUInt32).zip
      (((x.map (lc.groups.getD · 0)).zip (stat.lookup (x.map Nat.toUInt32))).map F),
      q.1.toNat ≠ p := by
    intro p hp q hq
    obtain ⟨k, hk, rfl⟩ := mem_zip_walk hq
    have := hsorted.2.2 k hk p hp
    simp only [Nat.toUInt32, UInt32.toNat_ofNat']
    omega
  refine ⟨by rw [size_batchSet, hw.size_eq], hsorted.2.1,
    fun p hp => hw.lt_size p (by simp [hp]), fun p hp => ?_, fun j g hg => ?_⟩
  · rw [getElem?_batchSet_of_ne (hbefore p hp)]
    exact hw.untouched p (by simp [hp])
  · rcases getElem?_batchSet hg with hg | ⟨q, hq, hqj, rfl⟩
    · exact hw.drawn j g hg
    · obtain ⟨k, hk, rfl⟩ := mem_zip_walk hq
      obtain ⟨hget, hlt⟩ := hx k hk
      exact .inr ⟨k, hlt, hqj, by rw [hget]⟩

/-- A stat walk checks that the stat covers the lookup and keeps its size; afterwards each
position holds its old group, or the move of the group read at a position numbering it, group 0
staying put. -/
theorem remapByStat_spec {batch : Nat} {move : GroupId → Int64 → GroupId} {l' : Lookup}
    (h : l.remapByStat stat batch move = .ok l') :
    l.size ≤ stat.numDocs ∧ l'.size = l.size ∧ ∀ j g, l'.groups[j]? = some g →
      l.groups[j]? = some g ∨ ∃ i < l.size, i.toUInt32.toNat = j ∧
        g = if l.groups.getD i 0 = noGroup then noGroup
          else move (l.groups.getD i 0) (stat.get i.toUInt32) := by
  unfold remapByStat at h
  split at h
  · cases h
  · rename_i hcover
    cases h
    have hw := foldl_invariant (Walking l stat fun p => if p.1 = noGroup then p.1 else move p.1 p.2)
      (fun _ _ _ hw => hw.next) _ _ (walking_start batch)
    refine ⟨Nat.le_of_not_lt hcover, hw.size_eq, fun j g hg => ?_⟩
    rcases hw.drawn j g hg with hg | ⟨i, hi, hij, rfl⟩
    · exact .inl hg
    · refine .inr ⟨i, hi, hij, ?_⟩
      split <;> simp_all

/-- Every group held after a stat walk was held before, or is the move of a group other than 0
held before. -/
theorem remapByStat_mem {batch : Nat} {move : GroupId → Int64 → GroupId} {l' : Lookup}
    {g : GroupId} (h : l.remapByStat stat batch move = .ok l') (hg : g ∈ l'.groups) :
    g ∈ l.groups ∨ ∃ g₀ ∈ l.groups, g₀ ≠ noGroup ∧ ∃ v, g = move g₀ v := by
  obtain ⟨-, -, hdrawn⟩ := remapByStat_spec h
  obtain ⟨j, hj⟩ := Array.mem_iff_getElem?.mp hg
  rcases hdrawn j g hj with hkept | ⟨i, hi, -, rfl⟩
  · exact .inl (Array.mem_iff_getElem?.mpr ⟨j, hkept⟩)
  · have hmem : l.groups.getD i 0 ∈ l.groups := by
      simp only [size] at hi
      simp only [Array.getD_eq_getD_getElem?, Array.getElem?_eq_getElem hi, Option.getD_some]
      exact Array.getElem_mem hi
    split
    · rename_i h0
      exact .inl (h0 ▸ hmem)
    · exact .inr ⟨_, hmem, ‹_›, _, rfl⟩

/-- On an assignment of at most `2 ^ 32` documents every position numbers its own document, so a
stat walk relates each document's group to its move, group 0 staying put. -/
theorem remapByStat_moves {R : GroupId → GroupId → Prop} [Std.Refl R] {batch : Nat}
    {move : GroupId → Int64 → GroupId} {l' : Lookup} (hsmall : l.size ≤ 2 ^ 32)
    (hR : ∀ g v, g ≠ noGroup → R g (move g v)) (h : l.remapByStat stat batch move = .ok l') :
    Moves R l l' := by
  obtain ⟨-, hsize, hdrawn⟩ := remapByStat_spec h
  refine ⟨hsize, fun j g g' hg hg' => ?_⟩
  rcases hdrawn j g' hg' with hkept | ⟨i, hi, hij, rfl⟩
  · rw [hg] at hkept
    cases hkept
    exact refl_of R g
  · have hij' : i = j := by
      simp only [Nat.toUInt32, UInt32.toNat_ofNat'] at hij
      rw [← hij, Nat.mod_eq_of_lt (by simp only [size] at hi hsmall; omega)]
    subst hij'
    have hget : l.groups.getD i 0 = g := by simp [Array.getD_eq_getD_getElem?, hg]
    rw [hget]
    split
    · rename_i h0
      rw [h0]
      exact refl_of R _
    · exact hR g _ ‹_›

end Walk

/-- A destination read from a list of groups below the bound, or group 0 past its end, lies
below the bound. -/
theorem getD_lt_of_forall {gs : List GroupId} (hc : ∀ g ∈ gs, g < maxNumGroups) (k : Nat) :
    gs.getD k noGroup < maxNumGroups := by
  rw [List.getD_eq_getElem?_getD]
  cases hk : gs[k]? with
  | none => decide
  | some g => exact hc g (List.mem_of_getElem? hk)

/-! ### Splits of one target group -/

section Target

variable {R : GroupId → GroupId → Prop} {l l' : Lookup} {s : Shard} {batch : Nat} {f : Field}
  {t n p : GroupId}

/-- A bitset split checks its two destinations and rewrites the documents of its target. -/
theorem bitSetRegroup_spec {bits : DocBits} (h : l.bitSetRegroup bits t n p = .ok l') :
    checkGroups [n, p] = .ok () ∧
      l' = bump { l with groups := l.groups.mapIdx fun i g =>
        if g = t then (if bits.get i then p else n) else g } (if n < p then p else n) := by
  unfold bitSetRegroup at h
  dsimp only at h
  by_cases hs : bits.size < l.size
  · rw [if_pos hs] at h
    cases h
  · rw [if_neg hs] at h
    obtain ⟨_, hc, h⟩ := bind_eq_ok.mp h
    cases h
    exact ⟨hc, rfl⟩

/-- A bitset split moves only documents of its target, each to a group below the bound. -/
theorem bitSetRegroup_moves [Std.Refl R] (hR : ∀ h, h < maxNumGroups → R t h) {bits : DocBits}
    (h : l.bitSetRegroup bits t n p = .ok l') : Moves R l l' := by
  obtain ⟨hc, rfl⟩ := bitSetRegroup_spec h
  have hn := checkGroups_eq_ok.mp hc n (by simp)
  have hp := checkGroups_eq_ok.mp hc p (by simp)
  refine ⟨by simp [size], fun i g g' hg hg' => ?_⟩
  simp only [groups_bump, Array.getElem?_mapIdx, hg, Option.map_some, Option.some.injEq] at hg'
  subst hg'
  split
  · rename_i hgt
    subst hgt
    split
    · exact hR p hp
    · exact hR n hn
  · exact refl_of R g

theorem termOr_moves [Std.Refl R] (hR : ∀ h, h < maxNumGroups → R t h) {terms : List Term}
    (h : l.termOr s batch f terms t n p = .ok l') : ∃ l'', l' = l''.recalculate ∧ Moves R l l'' := by
  unfold termOr at h
  obtain ⟨_, -, h⟩ := bind_eq_ok.mp h
  obtain ⟨l₁, h₁, h⟩ := bind_eq_ok.mp h
  cases h
  exact ⟨l₁, rfl, bitSetRegroup_moves hR h₁⟩

theorem random_moves [Std.Refl R] (hR : ∀ h, h < maxNumGroups → R t h) {salt : String} {x : Float}
    (h : l.random s batch f salt x t n p = .ok l') : ∃ l'', l' = l''.recalculate ∧ Moves R l l'' := by
  unfold random at h
  split at h
  · cases h
  · obtain ⟨_, -, h⟩ := bind_eq_ok.mp h
    obtain ⟨l₁, h₁, h⟩ := bind_eq_ok.mp h
    cases h
    exact ⟨l₁, rfl, bitSetRegroup_moves hR h₁⟩

/-- A threshold split checks its result groups and sends each document of its target to one
of them. -/
theorem randomMulti_spec {salt : String} {th : List Float} {rs : List GroupId}
    (h : l.randomMulti s batch f salt t th rs = .ok l') :
    checkGroups rs = .ok () ∧ ∃ k : Nat → Nat, l' = ((List.range l.size).foldl (fun l i =>
      if l.get i.toUInt32 ≠ t then l else l.set i.toUInt32 (rs.getD (k i) noGroup)) l).recalculate := by
  unfold randomMulti at h
  dsimp only at h
  split at h
  · cases h
  · split at h
    · cases h
    · obtain ⟨_, hc, h⟩ := bind_eq_ok.mp h
      cases h
      exact ⟨hc, _, rfl⟩

theorem randomMulti_moves [Std.Refl R] [IsTrans GroupId R] (hR : ∀ h, h < maxNumGroups → R t h)
    {salt : String} {th : List Float} {rs : List GroupId}
    (h : l.randomMulti s batch f salt t th rs = .ok l') :
    ∃ l'', l' = l''.recalculate ∧ Moves R l l'' := by
  obtain ⟨hc, k, rfl⟩ := randomMulti_spec h
  refine ⟨_, rfl, Moves.foldl id (fun l i => ?_) _ _⟩
  dsimp only [id]
  split
  · exact .refl _
  · rename_i ht
    apply moves_set
    rw [Decidable.not_not.mp ht]
    exact hR _ (getD_lt_of_forall (checkGroups_eq_ok.mp hc) _)

end Target

/-! ### Rule regroups and renames -/

section Rules

variable {R : GroupId → GroupId → Prop} {l l' : Lookup} {s : Shard} {batch : Nat}

/-- Applying rules moves a document only to the positive group of the rule of its group. -/
theorem moves_applyConditions [Std.Refl R] [IsTrans GroupId R] {table : RuleTable Rule}
    (hR : ∀ g r, table.get? g = some r → R g r.positive) (docs : List DocId) (marked : DocBits)
    (f : Field) (t : Term) : Moves R l (l.applyConditions docs marked table f t).1 := by
  unfold applyConditions
  refine Moves.foldl Prod.fst (fun acc d => ?_) docs (l, marked)
  obtain ⟨l, marked⟩ := acc
  dsimp only
  split
  · exact .refl _
  · split
    · exact .refl _
    · rename_i r hr
      split
      · exact moves_set (hR _ _ hr)
      · exact .refl _

/-- A rule regroup leaves group 0 alone and sends every other document below the bound. -/
theorem regroup_moves [Std.Refl R] [IsTrans GroupId R]
    (hR : ∀ g h, g ≠ noGroup → h < maxNumGroups → R g h) {rules : List Rule}
    (h : l.regroup s batch rules = .ok l') : ∃ l'', l' = l''.recalculate ∧ Moves R l l'' := by
  unfold regroup at h
  obtain ⟨table, htable, h⟩ := bind_eq_ok.mp h
  have hc := RuleTable.checked_build htable
  have hpos : ∀ g r, table.get? g = some r → R g r.positive := fun g r hr =>
    hR g _ (hc.get? hr).1 ((hc.get? hr).2 _ (by simp [Targeted.destinations]))
  split at h
  rename_i l₁ marked hacc
  cases h
  -- the scan moves documents to the positive groups of their rules
  have hscan : Moves R l l₁ := by
    refine Moves.of_foldl_eq Prod.fst (fun acc f => ?_) hacc
    refine Moves.foldl Prod.fst (fun acc td => ?_) _ acc
    exact moves_applyConditions hpos _ _ _ _
  -- the unmarked documents go to the negative group of their rule, or to group 0
  refine ⟨_, rfl, hscan.trans (Moves.foldl id (fun l i => ?_) _ _)⟩
  dsimp only [id]
  split
  · exact .refl _
  · apply moves_set
    cases hr : table.get? (l.get i.toUInt32) with
    | none =>
      simp only [Option.map_none, Option.getD_none]
      by_cases h0 : l.get i.toUInt32 = noGroup
      · rw [h0]
        exact refl_of R _
      · exact hR _ _ h0 (by decide)
    | some r =>
      simp only [Option.map_some, Option.getD_some]
      exact hR _ _ (hc.get? hr).1 ((hc.get? hr).2 _ (by simp [Targeted.destinations]))

/-- A multi-way regroup leaves group 0 alone and sends every other document below the bound. -/
theorem multisplit_moves [Std.Refl R] [IsTrans GroupId R]
    (hR : ∀ g h, g ≠ noGroup → h < maxNumGroups → R g h) {rules : List MultiRule} {strict : Bool}
    (h : l.multisplit s batch rules strict = .ok l') :
    ∃ l'', l' = l''.recalculate ∧ Moves R l l'' := by
  unfold multisplit at h
  obtain ⟨table, htable, h⟩ := bind_eq_ok.mp h
  have hc := RuleTable.checked_build htable
  obtain ⟨matched, -, h⟩ := bind_eq_ok.mp h
  cases h
  refine ⟨_, rfl, Moves.foldl id (fun l i => ?_) _ _⟩
  dsimp only [id]
  apply moves_set
  unfold multiTarget
  split
  · rename_i h0
    by_cases hg : l.get i.toUInt32 = noGroup
    · rw [hg]
      exact refl_of R _
    · exact hR _ _ hg (by decide)
  · rename_i r hr
    have hdest := (hc.get? hr).2
    apply hR _ _ (hc.get? hr).1
    split
    · exact hdest _ (by simp [Targeted.destinations])
    · exact getD_lt_of_forall (fun g hg => hdest g (by simp [Targeted.destinations, hg])) _

/-- Renaming groups leaves group 0 alone and sends every other document below the bound. -/
theorem remap_moves [Std.Refl R] [IsTrans GroupId R]
    (hR : ∀ g h, g ≠ noGroup → h < maxNumGroups → R g h) {sources destinations : List GroupId}
    {filter : Bool} (h : l.remap sources destinations filter = .ok l') :
    ∃ l'', l' = l''.recalculate ∧ Moves R l l'' := by
  unfold remap at h
  dsimp only at h
  split at h
  · cases h
  · obtain ⟨_, hc, h⟩ := bind_eq_ok.mp h
    cases h
    refine ⟨_, rfl, Moves.foldl id (fun l i => ?_) _ _⟩
    dsimp only [id]
    split
    · exact .refl _
    · rename_i hg
      split
      · rename_i src dst hfind
        apply moves_set (hR _ _ hg _)
        have hmem := List.mem_of_find?_eq_some hfind
        exact checkGroups_eq_ok.mp hc dst (List.of_mem_zip (List.mem_filter.mp hmem).1).2
      · split
        · exact moves_set (hR _ _ hg (by decide))
        · exact .refl _

end Rules

/-! ### Stat regroups -/

section Stat

variable {R : GroupId → GroupId → Prop} {l l' : Lookup} {stat : StatColumn} {batch : Nat}

/-- A metric regroup checks its bucketing against the bound, then walks the stat sending each
document to its bucket. -/
theorem metric_spec {b : Buckets} (h : l.metric stat batch b = .ok l') :
    b.validate l.numGroups = .ok () ∧
      ∃ l'', l.remapByStat stat batch b.destination = .ok l'' ∧ l' = l''.recalculate := by
  unfold metric at h
  obtain ⟨_, hv, h⟩ := bind_eq_ok.mp h
  obtain ⟨l₁, h₁, h⟩ := bind_eq_ok.mp h
  cases h
  exact ⟨hv, l₁, h₁, rfl⟩

/-- A stat filter checks its range, then walks the stat sending the documents it drops to
group 0. -/
theorem metricFilter_spec {lo hi : Int64} {negate : Bool}
    (h : l.metricFilter stat batch lo hi negate = .ok l') :
    ¬ hi < lo ∧ ∃ l'', l.remapByStat stat batch (fun g v =>
      if (lo ≤ v && v ≤ hi) != negate then g else noGroup) = .ok l'' ∧ l' = l''.recalculate := by
  unfold metricFilter at h
  split at h
  · cases h
  · obtain ⟨l₁, h₁, h⟩ := bind_eq_ok.mp h
    cases h
    exact ⟨‹_›, l₁, h₁, rfl⟩

/-- A stat split checks its range and its two groups, then walks the stat splitting its
target. -/
theorem targetedMetricFilter_spec {lo hi : Int64} {t n p : GroupId}
    (h : l.targetedMetricFilter stat batch lo hi t n p = .ok l') :
    ¬ hi < lo ∧ checkGroups [n, p] = .ok () ∧ ∃ l'', l.remapByStat stat batch (fun g v =>
      if g ≠ t then g else if lo ≤ v && v ≤ hi then p else n) = .ok l'' ∧
        l' = l''.recalculate := by
  unfold targetedMetricFilter at h
  split at h
  · cases h
  · obtain ⟨_, hc, h⟩ := bind_eq_ok.mp h
    obtain ⟨l₁, h₁, h⟩ := bind_eq_ok.mp h
    cases h
    exact ⟨‹_›, hc, l₁, h₁, rfl⟩

theorem metric_moves [Std.Refl R] {b : Buckets} (hsmall : l.size ≤ 2 ^ 32)
    (hR : ∀ g v, g ≠ noGroup → R g (b.destination g v)) (h : l.metric stat batch b = .ok l') :
    ∃ l'', l' = l''.recalculate ∧ Moves R l l'' := by
  obtain ⟨-, l₁, h₁, rfl⟩ := metric_spec h
  exact ⟨l₁, rfl, remapByStat_moves hsmall hR h₁⟩

theorem metricFilter_moves [Std.Refl R] {lo hi : Int64} {negate : Bool} (hsmall : l.size ≤ 2 ^ 32)
    (hR : ∀ g, g ≠ noGroup → R g noGroup) (h : l.metricFilter stat batch lo hi negate = .ok l') :
    ∃ l'', l' = l''.recalculate ∧ Moves R l l'' := by
  obtain ⟨-, l₁, h₁, rfl⟩ := metricFilter_spec h
  refine ⟨l₁, rfl, remapByStat_moves hsmall (fun g v hg => ?_) h₁⟩
  split
  · exact refl_of R g
  · exact hR g hg

/-- A stat split moves only documents of its target, each to one of two checked groups; since
the walk skips group 0 first, a target of 0 moves nothing. -/
theorem targetedMetricFilter_moves [Std.Refl R] {lo hi : Int64} {t n p : GroupId}
    (hsmall : l.size ≤ 2 ^ 32) (hR : t ≠ noGroup → ∀ h, h < maxNumGroups → R t h)
    (h : l.targetedMetricFilter stat batch lo hi t n p = .ok l') :
    ∃ l'', l' = l''.recalculate ∧ Moves R l l'' := by
  obtain ⟨-, hc, l₁, h₁, rfl⟩ := targetedMetricFilter_spec h
  refine ⟨l₁, rfl, remapByStat_moves hsmall (fun g v hg => ?_) h₁⟩
  split
  · exact refl_of R g
  · rename_i hgt
    rw [Decidable.not_not.mp hgt] at hg ⊢
    split
    · exact hR hg p (checkGroups_eq_ok.mp hc p (by simp))
    · exact hR hg n (checkGroups_eq_ok.mp hc n (by simp))

end Stat

end Lookup

end GroupStats
