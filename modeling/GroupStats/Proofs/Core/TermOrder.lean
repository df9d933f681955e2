import Mathlib
import GroupStats.Core.Term

/-!
# The order of terms

Comparing terms is a linear order: it answers `eq` exactly for equal terms, swapping the
arguments swaps the answer, and `lt` is transitive. The merges rely on this to find the least
of several terms whatever order they come in.
-/

namespace GroupStats

namespace Bytes

private theorem uint8_eq_of_not_lt {x y : UInt8} (h₁ : ¬ x < y) (h₂ : ¬ y < x) : x = y := by
  rw [UInt8.lt_iff_toNat_lt] at h₁ h₂
  exact UInt8.toNat_inj.mp (by omega)

theorem compareLex_eq_iff {a b : Bytes} : compareLex a b = .eq ↔ a = b := by
  induction a generalizing b with
  | nil => cases b <;> simp [compareLex]
  | cons x xs ih =>
    cases b with
    | nil => simp [compareLex]
    | cons y ys =>
      simp only [compareLex, List.cons.injEq]
      by_cases h₁ : x < y
      · simp only [h₁, if_true, reduceCtorEq, false_iff, not_and]
        intro hxy
        exact absurd (hxy ▸ h₁) (UInt8.lt_irrefl y)
      · by_cases h₂ : y < x
        · simp only [h₁, h₂, if_true, if_false, reduceCtorEq, false_iff, not_and]
          intro hxy
          exact absurd (hxy ▸ h₂) (UInt8.lt_irrefl y)
        · simp [ih, uint8_eq_of_not_lt h₁ h₂]

theorem compareLex_swap (a b : Bytes) : compareLex b a = (compareLex a b).swap := by
  induction a generalizing b with
  | nil => cases b <;> rfl
  | cons x xs ih =>
    cases b with
    | nil => rfl
    | cons y ys =>
      simp only [compareLex]
      by_cases h₁ : x < y
      · have h₂ : ¬ y < x := fun h => UInt8.lt_asymm h₁ h
        simp [h₁, h₂]
      · by_cases h₂ : y < x
        · simp [h₁, h₂]
        · simp [h₁, h₂, ih]

theorem compareLex_lt_trans {a b c : Bytes} (h₁ : compareLex a b = .lt)
    (h₂ : compareLex b c = .lt) : compareLex a c = .lt := by
  induction a generalizing b c with
  | nil =>
    cases b with
    | nil => simp [compareLex] at h₁
    | cons y ys => cases c with
      | nil => simp [compareLex] at h₂
      | cons z zs => rfl
  | cons x xs ih =>
    cases b with
    | nil => simp [compareLex] at h₁
    | cons y ys =>
      cases c with
      | nil => simp [compareLex] at h₂
      | cons z zs =>
        simp only [compareLex] at h₁ h₂ ⊢
        -- each comparison is decided by the first bytes, or by the rests when those are equal
        have hx := x.toNat_lt
        simp only [UInt8.lt_iff_toNat_lt] at h₁ h₂ ⊢
        by_cases hxy : x.toNat < y.toNat <;> by_cases hyx : y.toNat < x.toNat <;>
          by_cases hyz : y.toNat < z.toNat <;> by_cases hzy : z.toNat < y.toNat <;>
          simp only [hxy, hyx, hyz, hzy, if_true, if_false, reduceCtorEq] at h₁ h₂ <;>
          first
          | (have hxz : x.toNat < z.toNat := by omega
             simp [hxz])
          | (have hxz : x = z := UInt8.toNat_inj.mp (by omega)
             subst hxz
             simp [ih h₁ h₂])

end Bytes

namespace Term

private theorem int64_eq_of_not_lt {a b : Int64} (h₁ : ¬ a < b) (h₂ : ¬ b < a) : a = b := by
  rw [Int64.lt_iff_toInt_lt] at h₁ h₂
  exact Int64.toInt_inj.mp (by omega)

theorem compare_eq_iff {a b : Term} : Term.compare a b = .eq ↔ a = b := by
  cases a with
  | int x =>
    cases b with
    | int y =>
      simp only [Term.compare, Term.int.injEq]
      by_cases h₁ : x < y
      · simp only [h₁, if_true, reduceCtorEq, false_iff]
        intro hxy
        exact absurd (hxy ▸ h₁) Int64.lt_irrefl
      · by_cases h₂ : y < x
        · simp only [h₁, h₂, if_true, if_false, reduceCtorEq, false_iff]
          intro hxy
          exact absurd (hxy ▸ h₂) Int64.lt_irrefl
        · simp [int64_eq_of_not_lt h₁ h₂]
    | bytes b => simp [Term.compare]
  | bytes x =>
    cases b with
    | int y => simp [Term.compare]
    | bytes y => simp [Term.compare, Bytes.compareLex_eq_iff]

theorem compare_swap (a b : Term) : Term.compare b a = (Term.compare a b).swap := by
  cases a with
  | int x =>
    cases b with
    | int y =>
      simp only [Term.compare]
      by_cases h₁ : x < y
      · have h₂ : ¬ y < x := fun h => Int64.lt_asymm h₁ h
        simp [h₁, h₂]
      · by_cases h₂ : y < x <;> simp [h₁, h₂]
    | bytes b => rfl
  | bytes x =>
    cases b with
    | int y => rfl
    | bytes y => exact Bytes.compareLex_swap x y

theorem compare_lt_trans {a b c : Term} (h₁ : Term.compare a b = .lt)
    (h₂ : Term.compare b c = .lt) : Term.compare a c = .lt := by
  cases a <;> cases b <;> cases c
  case int.int.int x y z =>
    simp only [Term.compare] at h₁ h₂ ⊢
    -- the first comparison says x < y and the second y < z
    have hxz : x < z := by
      by_cases hxy : x < y <;> by_cases hyx : y < x <;> by_cases hyz : y < z <;>
        by_cases hzy : z < y <;>
        simp only [hxy, hyx, hyz, hzy, if_true, if_false, reduceCtorEq] at h₁ h₂ <;>
        simp only [Int64.lt_iff_toInt_lt] at * <;> omega
    simp [hxz]
  case bytes.bytes.bytes x y z => exact Bytes.compareLex_lt_trans h₁ h₂
  case int.int.bytes | int.bytes.bytes => rfl
  case int.bytes.int | bytes.bytes.int => simp [Term.compare] at h₂
  case bytes.int.int | bytes.int.bytes => simp [Term.compare] at h₁

/-- The least of two terms is below or equal to every term the other is below or equal to. -/
theorem compare_ne_gt_trans {a b c : Term} (h₁ : Term.compare a b ≠ .gt)
    (h₂ : Term.compare b c ≠ .gt) : Term.compare a c ≠ .gt := by
  cases h : Term.compare a b
  · cases h' : Term.compare b c
    · rw [compare_lt_trans h h']; decide
    · rw [compare_eq_iff.mp h'] at h; rw [h]; decide
    · exact absurd h' h₂
  · rw [compare_eq_iff.mp h]; exact h₂
  · exact absurd h h₁

theorem compare_lt_of_ne_gt_of_lt {a b c : Term} (h₁ : Term.compare a b ≠ .gt)
    (h₂ : Term.compare b c = .lt) : Term.compare a c = .lt := by
  cases h : Term.compare a b
  · exact compare_lt_trans h h₂
  · rw [compare_eq_iff.mp h]; exact h₂
  · exact absurd h h₁

theorem compare_lt_of_lt_of_ne_gt {a b c : Term} (h₁ : Term.compare a b = .lt)
    (h₂ : Term.compare b c ≠ .gt) : Term.compare a c = .lt := by
  cases h : Term.compare b c
  · exact compare_lt_trans h₁ h
  · rw [← compare_eq_iff.mp h]; exact h₁
  · exact absurd h h₂

theorem le_eq_true_iff {a b : Term} : Term.le a b = true ↔ Term.compare a b ≠ .gt := by
  simp [Term.le]

/-! ### Searching a sorted set of terms -/

/-- Each term of the array sorts at or before every later one. -/
def Ascending (xs : Array Term) : Prop := xs.toList.Pairwise fun a b => Term.le a b = true

theorem Ascending.compare_ne_gt {xs : Array Term} (hs : Ascending xs) {i j : Nat} (hij : i ≤ j)
    (hi : i < xs.size) (hj : j < xs.size) : Term.compare xs[i] xs[j] ≠ .gt := by
  rcases Nat.lt_or_eq_of_le hij with hij | rfl
  · have := List.pairwise_iff_getElem.mp hs i j (by simpa using hi) (by simpa using hj) hij
    simpa [le_eq_true_iff] using this
  · rw [compare_self]
    decide

/-- A window search that answers yes has met the term inside the window, whether the array is
sorted or not. -/
theorem searchWindow_sound {xs : Array Term} {t : Term} {lo hi : Nat}
    (h : searchWindow xs t lo hi = true) : ∃ k, lo ≤ k ∧ k < hi ∧ xs[k]? = some t := by
  fun_induction searchWindow xs t lo hi with
  | case1 lo hi hw hmid hlt ih =>
    obtain ⟨k, hk₁, hk₂, hk⟩ := ih h
    exact ⟨k, by omega, hk₂, hk⟩
  | case2 lo hi hw hmid hgt ih =>
    obtain ⟨k, hk₁, hk₂, hk⟩ := ih h
    exact ⟨k, hk₁, by omega, hk⟩
  | case3 lo hi hw hmid heq =>
    exact ⟨lo + (hi - lo) / 2, by omega, by omega, by simp [hmid, compare_eq_iff.mp heq]⟩
  | case4 => simp at h

/-- On an ascending array, a window that holds the term is searched with success: the middle
term decides on which side of it the term can lie. -/
theorem searchWindow_complete {xs : Array Term} {t : Term} (hs : Ascending xs) {lo hi k : Nat}
    (hlo : lo ≤ k) (hk : k < hi) (hhi : hi ≤ xs.size) (hkt : xs[k]? = some t) :
    searchWindow xs t lo hi = true := by
  have hks : k < xs.size := by omega
  have hxk : xs[k] = t := by simpa [hks] using hkt
  fun_induction searchWindow xs t lo hi with
  | case1 lo hi hw hmid hlt ih =>
    -- the middle term is below `t`, so every term up to it is
    refine ih (Nat.lt_of_not_le fun hkm => ?_) hk hhi
    have := compare_lt_of_ne_gt_of_lt (hs.compare_ne_gt hkm hks hmid) hlt
    rw [hxk, compare_self] at this
    cases this
  | case2 lo hi hw hmid hgt ih =>
    -- the middle term is above `t`, so every term from it on is
    refine ih hlo (Nat.lt_of_not_le fun hmk => ?_) (by omega)
    have hlt : Term.compare t xs[lo + (hi - lo) / 2] = .lt := by rw [compare_swap, hgt]; rfl
    have := compare_lt_of_lt_of_ne_gt hlt (hs.compare_ne_gt hmk hmid hks)
    rw [hxk, compare_self] at this
    cases this
  | case3 => rfl
  | case4 lo hi hw => exact absurd ⟨by omega, hhi⟩ hw

/-- On an ascending array, binary search answers exactly whether the array holds the term. -/
theorem search_iff {xs : Array Term} (hs : Ascending xs) (t : Term) :
    search xs t = true ↔ t ∈ xs := by
  constructor
  · intro h
    obtain ⟨k, -, -, hk⟩ := searchWindow_sound h
    exact Array.mem_of_getElem? hk
  · intro h
    obtain ⟨k, hk, hkt⟩ := Array.getElem_of_mem h
    exact searchWindow_complete hs (Nat.zero_le k) hk (Nat.le_refl _) (by simp [hk, hkt])

end Term

/-- Dropping repeats keeps, in order, some of the elements. -/
theorem eraseRepsBy_loop_sublist {α : Type} (r : α → α → Bool) :
    ∀ (l : List α) (a : α) (acc : List α),
      (List.eraseRepsBy.loop r a l acc).Sublist (acc.reverse ++ a :: l)
  | [], a, acc => by simp [List.eraseRepsBy.loop]
  | b :: l, a, acc => by
    rw [List.eraseRepsBy.loop.eq_2]
    cases r a b
    · have := eraseRepsBy_loop_sublist r l b (a :: acc)
      simpa using this
    · exact (eraseRepsBy_loop_sublist r l a acc).trans
        (List.Sublist.append_left (List.Sublist.cons_cons a (List.sublist_cons_self b l)) _)

/-- Dropping repeats by a test for equality drops only elements equal to the one kept before
them. -/
theorem mem_eraseRepsBy_loop {α : Type} {r : α → α → Bool} (hr : ∀ a b, r a b = true ↔ a = b)
    {x : α} : ∀ (l : List α) (a : α) (acc : List α),
      x ∈ List.eraseRepsBy.loop r a l acc ↔ x ∈ acc ∨ x = a ∨ x ∈ l
  | [], a, acc => by simp [List.eraseRepsBy.loop, or_comm]
  | b :: l, a, acc => by
    rw [List.eraseRepsBy.loop.eq_2]
    cases hab : r a b
    · -- `b` differs from `a`: it is kept and becomes the one compared with
      simp only [mem_eraseRepsBy_loop hr l b (a :: acc), List.mem_cons]
      constructor
      · rintro ((h | h) | h | h) <;> simp [h]
      · rintro (h | h | h | h) <;> simp [h]
    · -- `b` equals `a`: it is dropped, and `a` stands for it
      obtain rfl := (hr a b).mp hab
      simp only [mem_eraseRepsBy_loop hr l a acc, List.mem_cons]
      constructor
      · rintro (h | h | h) <;> simp [h]
      · rintro (h | h | h | h) <;> simp [h]

theorem eraseReps_sublist {α : Type} [BEq α] (l : List α) : l.eraseReps.Sublist l := by
  cases l with
  | nil => exact List.Sublist.slnil
  | cons a l =>
    rw [List.eraseReps, List.eraseRepsBy.eq_2]
    simpa using eraseRepsBy_loop_sublist _ l a []

theorem mem_eraseReps {α : Type} [BEq α] [LawfulBEq α] {x : α} {l : List α} :
    x ∈ l.eraseReps ↔ x ∈ l := by
  cases l with
  | nil => rfl
  | cons a l =>
    rw [List.eraseReps, List.eraseRepsBy.eq_2, mem_eraseRepsBy_loop (fun a b => beq_iff_eq)]
    simp

namespace Term

/-- The prepared set of terms is ascending. -/
theorem ascending_sortedSet (terms : List Term) : Ascending (sortedSet terms) := by
  have hsorted := @List.pairwise_mergeSort _ Term.le
    (fun a b c hab hbc => le_eq_true_iff.mpr
      (compare_ne_gt_trans (le_eq_true_iff.mp hab) (le_eq_true_iff.mp hbc)))
    (fun a b => by
      cases h : Term.compare a b <;> simp [Term.le, h, compare_swap a b])
    terms
  exact hsorted.sublist (by simpa [sortedSet] using eraseReps_sublist _)

theorem mem_sortedSet {t : Term} {terms : List Term} : t ∈ sortedSet terms ↔ t ∈ terms := by
  simp [sortedSet, mem_eraseReps, List.mem_mergeSort]

/-- Binary search in the prepared set of terms finds exactly the terms of the list, whatever
their order and repeats. -/
theorem search_sortedSet (terms : List Term) (t : Term) :
    search (sortedSet terms) t = true ↔ t ∈ terms := by
  rw [search_iff (ascending_sortedSet terms), mem_sortedSet]

end Term

end GroupStats
