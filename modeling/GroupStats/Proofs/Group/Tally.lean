import Mathlib
import GroupStats.Group.Totals
import GroupStats.Group.Bits
import GroupStats.Stream.Basic

/-!
# Totals and seen groups

How the two tallies a merge keeps for the current term behave. `Totals.add` sums stats into
the row of one group and leaves every other row as it was; clearing the groups that have rows
leaves no row. A `SeenGroups` is valid when its marks are exactly the groups of its list: it
then records each group once, in the order they first came, its list is sorted whenever its
flag says so, and clearing it gives back an empty tracker.
-/

namespace GroupStats

namespace Totals

variable (t : Totals) (g : GroupId) (stats : List Int64) (n : Nat)

@[simp] theorem row_empty : ({} : Totals).row g n = List.replicate n 0 := rfl

theorem row_add_self : (t.add g stats).row g n = List.zipWith (· + ·) (t.row g stats.length) stats := by
  simp [add, row]

theorem row_add_of_ne {g' : GroupId} (h : g' ≠ g) : (t.add g stats).row g' n = t.row g' n := by
  have hne : (g == g') = false := by simpa using Ne.symm h
  simp only [add, row, List.find?_cons, hne]
  congr 2
  rw [List.find?_filter]
  congr 1
  funext r
  by_cases hr : r.1 = g'
  · subst hr
    simpa using h
  · simp [hr]

theorem mem_rows_add {r : GroupId × List Int64} (hr : r ∈ (t.add g stats).rows) :
    r.1 = g ∨ r ∈ t.rows := by
  simp only [add, List.mem_cons, List.mem_filter] at hr
  rcases hr with rfl | ⟨hr, -⟩
  · exact .inl rfl
  · exact .inr hr

/-- Clearing every group that has a row leaves no row. -/
theorem reset_of_rows {gs : List GroupId} (h : ∀ r ∈ t.rows, r.1 ∈ gs) : t.reset gs = {} := by
  simp only [reset]
  congr
  rw [List.filter_eq_nil_iff]
  intro r hr
  simpa using h r hr

/-- Adding the rows of other groups leaves the totals of a group as they were. -/
theorem row_foldl_of_not_mem {t : Totals} {g : GroupId} {n : Nat} {rs : List GroupRow}
    (h : g ∉ rs.map (·.group)) :
    (rs.foldl (fun t r => t.add r.group r.stats) t).row g n = t.row g n := by
  induction rs generalizing t with
  | nil => rfl
  | cons r rs ih =>
    simp only [List.map_cons, List.mem_cons, not_or] at h
    rw [List.foldl_cons, ih h.2, row_add_of_ne _ _ _ _ h.1]

/-- Adding rows of distinct groups, a group that has a row gets that row's stats added once. -/
theorem row_foldl_of_mem {t : Totals} {n : Nat} {rs : List GroupRow} (hrs : (rs.map (·.group)).Nodup)
    {r : GroupRow} (hr : r ∈ rs) :
    (rs.foldl (fun t r => t.add r.group r.stats) t).row r.group n =
      List.zipWith (· + ·) (t.row r.group r.stats.length) r.stats := by
  induction rs generalizing t with
  | nil => cases hr
  | cons r' rs ih =>
    rw [List.map_cons, List.nodup_cons] at hrs
    rw [List.foldl_cons]
    rcases List.mem_cons.mp hr with rfl | hr
    · rw [row_foldl_of_not_mem hrs.1, row_add_self]
    · -- the first row belongs to another group, so it leaves this group's totals alone
      have hne : r.group ≠ r'.group := fun he => hrs.1 (he ▸ List.mem_map_of_mem hr)
      rw [ih hrs.2 hr, row_add_of_ne _ _ _ _ hne]

end Totals

/-- Adding zeros of the right width changes no stat. -/
theorem zipWith_add_zeros (stats : List Int64) :
    List.zipWith (· + ·) (List.replicate stats.length 0) stats = stats := by
  induction stats with
  | nil => rfl
  | cons s ss ih => simp [List.replicate_succ, ih]

namespace DocBits

theorem insertSorted_perm {x : Nat} :
    ∀ {l : List Nat}, x ∉ l → (insertSorted x l).Perm (x :: l)
  | [], _ => .refl _
  | y :: ys, h => by
    have hxy : x ≠ y := fun e => h (e ▸ List.mem_cons_self ..)
    simp only [insertSorted, hxy, if_false]
    split
    · exact .refl _
    · exact ((insertSorted_perm fun hm => h (List.mem_cons_of_mem _ hm)).cons y).trans
        (.swap x y ys)

end DocBits

namespace SeenGroups

/-- The marks are exactly the groups of the list. -/
def Valid (s : SeenGroups) : Prop := s.bits.members.Perm (s.list.map UInt32.toNat)

/-- The flag says the list is sorted only when it is. -/
def Ordered (s : SeenGroups) : Prop := s.ascending = true → s.list.Pairwise (· ≤ ·)

variable {s : SeenGroups} {g : GroupId}

theorem get_iff (hv : s.Valid) : s.bits.get g.toNat = true ↔ g ∈ s.list := by
  simp only [DocBits.get, List.contains_iff_mem, hv.mem_iff, List.mem_map]
  constructor
  · rintro ⟨g', hg', he⟩
    exact UInt32.toNat_inj.mp he ▸ hg'
  · intro hg
    exact ⟨g, hg, rfl⟩

theorem insert_of_mem (hv : s.Valid) (hg : g ∈ s.list) : s.insert g = s := by
  simp [insert, (get_iff hv).mpr hg]

theorem insert_of_not_mem (hv : s.Valid) (hg : g ∉ s.list) :
    s.insert g = { bits := s.bits.set g.toNat, list := s.list ++ [g],
                   ascending := s.ascending && s.list.getLast?.all (· ≤ g) } := by
  have : s.bits.get g.toNat = false := by
    cases h : s.bits.get g.toNat
    · rfl
    · exact absurd ((get_iff hv).mp h) hg
  simp [insert, this]

theorem Valid.insert (hv : s.Valid) (g : GroupId) : (s.insert g).Valid := by
  by_cases hg : g ∈ s.list
  · rw [insert_of_mem hv hg]; exact hv
  · rw [insert_of_not_mem hv hg]
    have hnot : g.toNat ∉ s.bits.members := fun hm => hg ((get_iff hv).mp (by
      simpa [DocBits.get] using hm))
    show (DocBits.insertSorted g.toNat s.bits.members).Perm ((s.list ++ [g]).map UInt32.toNat)
    rw [List.map_append, List.map_singleton]
    exact (DocBits.insertSorted_perm hnot).trans
      ((hv.cons _).trans (List.perm_append_singleton _ _).symm)

/-- A valid tracker adds a group to its list the first time it sees it. -/
theorem list_insert (hv : s.Valid) (g : GroupId) :
    (s.insert g).list = if g ∈ s.list then s.list else s.list ++ [g] := by
  by_cases hg : g ∈ s.list
  · rw [insert_of_mem hv hg, if_pos hg]
  · rw [insert_of_not_mem hv hg, if_neg hg]

theorem le_of_getLast? {l : List GroupId} (hl : l.Pairwise (· ≤ ·)) {m : GroupId}
    (hm : l.getLast? = some m) : ∀ x ∈ l, x ≤ m := by
  obtain ⟨ys, rfl⟩ := List.getLast?_eq_some_iff.mp hm
  intro x hx
  rcases List.mem_append.mp hx with hx | hx
  · exact (List.pairwise_append.mp hl).2.2 x hx m (List.mem_singleton_self m)
  · rw [List.mem_singleton.mp hx]; exact UInt32.le_refl m

theorem Ordered.insert (hv : s.Valid) (ho : s.Ordered) (g : GroupId) : (s.insert g).Ordered := by
  by_cases hg : g ∈ s.list
  · rw [insert_of_mem hv hg]; exact ho
  · rw [insert_of_not_mem hv hg]
    intro hasc
    simp only [Bool.and_eq_true] at hasc
    obtain ⟨hasc, hlast⟩ := hasc
    have hsorted := ho hasc
    refine List.pairwise_append.mpr ⟨hsorted, List.pairwise_singleton _ _, ?_⟩
    intro x hx y hy
    rw [List.mem_singleton.mp hy]
    cases hm : s.list.getLast? with
    | none => rw [List.getLast?_eq_none_iff.mp hm] at hx; cases hx
    | some m =>
      rw [hm] at hlast
      have hmg : m ≤ g := by simpa using hlast
      exact UInt32.le_trans (le_of_getLast? hsorted hm x hx) hmg

theorem sorted_eq (ho : s.Ordered) : s.sorted = s.list.mergeSort (· ≤ ·) := by
  unfold sorted sort
  cases hasc : s.ascending
  · rfl
  · simp only [if_true]
    exact (List.mergeSort_of_pairwise (by simpa using ho hasc)).symm

theorem Valid.sort (hv : s.Valid) : s.sort.Valid := by
  unfold SeenGroups.sort
  split
  · exact hv
  · exact hv.trans ((List.mergeSort_perm _ _).symm.map _)

theorem Ordered.sort (ho : s.Ordered) : s.sort.Ordered := by
  unfold SeenGroups.sort
  split
  · exact ho
  · intro _
    have := @List.pairwise_mergeSort _ (fun a b : GroupId => decide (a ≤ b))
      (fun a b c h₁ h₂ => by
        simp only [decide_eq_true_eq] at h₁ h₂ ⊢
        exact UInt32.le_trans h₁ h₂)
      (fun a b => by
        simp only [Bool.or_eq_true, decide_eq_true_eq]
        exact UInt32.le_total a b) s.list
    exact this.imp fun h => by simpa using h

theorem list_sort : s.sort.list = s.sorted := rfl

/-- Inserting groups one by one keeps a valid, ordered tracker so, and its list gains each
group the first time it comes. -/
theorem foldl_insert (hv : s.Valid) (ho : s.Ordered) (gs : List GroupId) :
    (gs.foldl SeenGroups.insert s).Valid ∧ (gs.foldl SeenGroups.insert s).Ordered ∧
      (gs.foldl SeenGroups.insert s).list =
        gs.foldl (fun acc g => if g ∈ acc then acc else acc ++ [g]) s.list := by
  induction gs generalizing s with
  | nil => exact ⟨hv, ho, rfl⟩
  | cons g gs ih =>
    obtain ⟨hv', ho', hl⟩ := ih (hv.insert g) (ho.insert hv g)
    refine ⟨hv', ho', ?_⟩
    rw [List.foldl_cons, hl, list_insert hv g]
    rfl

theorem clear_members {f : GroupId → Nat} :
    ∀ (l : List GroupId) (b : DocBits), b.members.Perm (l.map f) →
      l.foldl (fun b g => b.clear (f g)) b = DocBits.empty b.size
  | [], b, h => by
    cases b
    simp only [List.map_nil, List.perm_nil] at h
    simp [h, DocBits.empty]
  | g :: l, b, h => by
    rw [List.foldl_cons]
    have h' : (b.clear (f g)).members.Perm (l.map f) := by
      have := h.erase (f g)
      simpa [DocBits.clear] using this
    exact clear_members l _ h'

/-- Clearing a valid tracker gives an empty one of the same capacity. -/
theorem clear_eq (hv : s.Valid) : s.clear = SeenGroups.empty s.capacity := by
  simp only [clear, clear_members s.list s.bits hv, SeenGroups.empty, capacity]

theorem valid_empty (c : Nat) : (SeenGroups.empty c).Valid := List.Perm.refl _

theorem ordered_empty (c : Nat) : (SeenGroups.empty c).Ordered := fun _ => List.Pairwise.nil

end SeenGroups

end GroupStats
