import GroupStats.Proofs.Group.Tally

/-!
# Seen groups over a run of operations

A `SeenGroups` is driven by three operations: recording a group, reading the groups in
ascending order, which sorts the list in place when the flag says it is not sorted yet, and
clearing, which unmarks only the groups of the list. `Tracks` is its representation invariant
relative to the groups recorded since the last clear: the list holds each of them once, the
marks are exactly the groups of the list and lie below the capacity, and the flag is set only
over an ascending list. Every operation keeps it (`Tracks.apply`), so every run from an empty
tracker does (`tracks_run`). Reading the groups then gives the recorded groups, each once and
strictly ascending, and clearing gives back an empty tracker: the sparse reset is complete
because the list names every mark.
-/

namespace GroupStats

namespace SeenGroups

/-- An operation on a tracker of seen groups. -/
inductive Op where
  | insert (g : GroupId)
  | sorted
  | clear
  deriving DecidableEq, Repr

namespace Op

/-- The tracker an operation leaves; reading the groups in order leaves them sorted. -/
def apply : Op → SeenGroups → SeenGroups
  | .insert g, s => s.insert g
  | .sorted, s => s.sort
  | .clear, s => s.clear

/-- The groups recorded since the last clear, in the order they came, repeats included. -/
def record : List GroupId → Op → List GroupId
  | gs, .insert g => gs ++ [g]
  | gs, .sorted => gs
  | _, .clear => []

/-- The groups a run of operations recorded after its last clear. -/
def pending (ops : List Op) : List GroupId := ops.foldl record []

/-- The operation stays within a capacity: a group it records lies below it. -/
def Fits (c : Nat) : Op → Prop
  | .insert g => g.toNat < c
  | _ => True

end Op

/-- The tracker a run of operations leaves. -/
def run (ops : List Op) (s : SeenGroups) : SeenGroups := ops.foldl (fun s o => o.apply s) s

/-- The representation invariant of a tracker of capacity `c` that recorded `gs` since its
last clear. -/
structure Tracks (c : Nat) (gs : List GroupId) (s : SeenGroups) : Prop where
  capacity : s.capacity = c
  valid : s.Valid
  ordered : s.Ordered
  nodup : s.list.Nodup
  mem : ∀ g, g ∈ s.list ↔ g ∈ gs
  below : ∀ g ∈ s.list, g.toNat < c

variable {c : Nat} {gs : List GroupId} {s : SeenGroups}

@[simp] theorem capacity_insert (s : SeenGroups) (g : GroupId) :
    (s.insert g).capacity = s.capacity := by
  unfold SeenGroups.insert
  split <;> rfl

@[simp] theorem capacity_sort (s : SeenGroups) : s.sort.capacity = s.capacity := by
  unfold SeenGroups.sort
  split <;> rfl

@[simp] theorem ascending_sort (s : SeenGroups) : s.sort.ascending = true := by
  unfold SeenGroups.sort
  split
  · assumption
  · rfl

theorem list_sort_perm (s : SeenGroups) : s.sort.list.Perm s.list := by
  unfold SeenGroups.sort
  split
  · exact .refl _
  · exact List.mergeSort_perm _ _

theorem tracks_empty (c : Nat) : Tracks c [] (empty c) where
  capacity := rfl
  valid := valid_empty c
  ordered := ordered_empty c
  nodup := List.nodup_nil
  mem _ := by simp [empty]
  below _ h := nomatch h

theorem Tracks.insert (h : Tracks c gs s) {g : GroupId} (hg : g.toNat < c) :
    Tracks c (gs ++ [g]) (s.insert g) where
  capacity := by rw [capacity_insert, h.capacity]
  valid := h.valid.insert g
  ordered := h.ordered.insert h.valid g
  nodup := by
    rw [list_insert h.valid]
    split
    · exact h.nodup
    · exact List.nodup_append.mpr ⟨h.nodup, List.pairwise_singleton _ g, fun x hx y hy hxy =>
        ‹g ∉ s.list› (List.mem_singleton.mp (hxy ▸ hy) ▸ hx)⟩
  mem g' := by
    rw [list_insert h.valid, List.mem_append, List.mem_singleton, ← h.mem]
    split
    · constructor
      · exact .inl
      · rintro (h' | rfl) <;> assumption
    · rw [List.mem_append, List.mem_singleton]
  below g' hg' := by
    rw [list_insert h.valid] at hg'
    split at hg'
    · exact h.below g' hg'
    · rcases List.mem_append.mp hg' with hg' | hg'
      · exact h.below g' hg'
      · exact List.mem_singleton.mp hg' ▸ hg

theorem Tracks.sort (h : Tracks c gs s) : Tracks c gs s.sort where
  capacity := by rw [capacity_sort, h.capacity]
  valid := h.valid.sort
  ordered := h.ordered.sort
  nodup := (list_sort_perm s).nodup_iff.mpr h.nodup
  mem g := ((list_sort_perm s).mem_iff).trans (h.mem g)
  below g hg := h.below g ((list_sort_perm s).subset hg)

theorem Tracks.clear (h : Tracks c gs s) : Tracks c [] s.clear := by
  rw [clear_eq h.valid, h.capacity]
  exact tracks_empty c

/-- The step lemma: an operation within the capacity keeps the invariant, relative to what it
records. -/
theorem Tracks.apply (h : Tracks c gs s) {o : Op} (ho : o.Fits c) :
    Tracks c (Op.record gs o) (o.apply s) := by
  cases o with
  | insert g => exact h.insert ho
  | sorted => exact h.sort
  | clear => exact h.clear

/-- The run lemma: a run of operations within the capacity keeps the invariant. -/
theorem Tracks.run (h : Tracks c gs s) {ops : List Op} (hops : ∀ o ∈ ops, o.Fits c) :
    Tracks c (ops.foldl Op.record gs) (SeenGroups.run ops s) := by
  induction ops generalizing gs s with
  | nil => exact h
  | cons o ops ih =>
    exact ih (h.apply (hops o List.mem_cons_self)) fun o' ho' => hops o' (List.mem_cons_of_mem _ ho')

theorem tracks_run {ops : List Op} (hops : ∀ o ∈ ops, o.Fits c) :
    Tracks c (Op.pending ops) (run ops (empty c)) :=
  (tracks_empty c).run hops

/-- Under the invariant the marks are exactly the listed groups. -/
theorem Tracks.get_iff (h : Tracks c gs s) (n : Nat) :
    s.bits.get n = true ↔ ∃ g ∈ s.list, g.toNat = n := by
  simp only [DocBits.get, List.contains_iff_mem, h.valid.mem_iff, List.mem_map]

/-- A listed group is there once, so an ordered list strictly ascends. -/
theorem Tracks.ascending (h : Tracks c gs s) (hasc : s.ascending = true) :
    s.list.Pairwise (· < ·) :=
  (h.ordered hasc).imp₂ (fun _ _ hle hne => UInt32.lt_of_le_of_ne hle hne) h.nodup

/-- Under the invariant, the groups read in order are the recorded groups, once each and
strictly ascending. -/
theorem Tracks.sorted (h : Tracks c gs s) :
    s.sorted.Pairwise (· < ·) ∧ ∀ g, g ∈ s.sorted ↔ g ∈ gs := by
  have hs := h.sort
  exact ⟨hs.ascending (ascending_sort s), hs.mem⟩

/-- A tracker of seen groups keeps its representation through any run of recordings below its
capacity, in-order reads and clears: each group recorded since the last clear is listed once and
marked, the list ascending when the flag says so. Reading gives those groups strictly ascending, and
clearing gives back an empty tracker. -/
theorem run_keeps_representation (c : Nat) (ops : List Op) (hops : ∀ o ∈ ops, o.Fits c) :
    (run ops (empty c)).list.Nodup ∧
      (∀ g, g ∈ (run ops (empty c)).list ↔ g ∈ Op.pending ops) ∧
      (∀ g ∈ (run ops (empty c)).list, g.toNat < c) ∧
      (∀ n, (run ops (empty c)).bits.get n = true ↔
        ∃ g ∈ (run ops (empty c)).list, g.toNat = n) ∧
      ((run ops (empty c)).ascending = true → (run ops (empty c)).list.Pairwise (· < ·)) ∧
      ((run ops (empty c)).sorted.Pairwise (· < ·) ∧
        ∀ g, g ∈ (run ops (empty c)).sorted ↔ g ∈ Op.pending ops) ∧
      (run ops (empty c)).clear = empty c := by
  have h := tracks_run hops
  refine ⟨h.nodup, h.mem, h.below, h.get_iff, h.ascending, h.sorted, ?_⟩
  rw [clear_eq h.valid, h.capacity]

/-- The groups 7, 2, 7, 5 and 2 are read back as 2, 5 and 7; after a clear, the group 1
recorded next is all there is. -/
theorem run_records_then_clears :
    let ops : List Op := [.insert 7, .insert 2, .insert 7, .insert 5, .insert 2, .sorted, .clear,
      .insert 1]
    (∀ o ∈ ops, o.Fits 10) ∧
      ((run ops (empty 10)).list.Nodup ∧
        (∀ g, g ∈ (run ops (empty 10)).list ↔ g ∈ Op.pending ops) ∧
        (∀ g ∈ (run ops (empty 10)).list, g.toNat < 10) ∧
        (∀ n, (run ops (empty 10)).bits.get n = true ↔
          ∃ g ∈ (run ops (empty 10)).list, g.toNat = n) ∧
        ((run ops (empty 10)).ascending = true → (run ops (empty 10)).list.Pairwise (· < ·)) ∧
        ((run ops (empty 10)).sorted.Pairwise (· < ·) ∧
          ∀ g, g ∈ (run ops (empty 10)).sorted ↔ g ∈ Op.pending ops) ∧
        (run ops (empty 10)).clear = empty 10) := by
  intro ops
  have hops : ∀ o ∈ ops, o.Fits 10 := by
    simp [ops, Op.Fits]
  exact ⟨hops, run_keeps_representation 10 ops hops⟩

end SeenGroups

end GroupStats
