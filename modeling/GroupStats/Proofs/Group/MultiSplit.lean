import GroupStats.Proofs.Group.RuleTable
import GroupStats.Proofs.Session.Accounting

/-!
# Multi-way regroups by their definition

A multi-way regroup sends each document by the first rule given for its group, when that group is
not 0 and lies below the lookup's bound: to the destination of the first of the rule's conditions
the document meets, and to the rule's negative group when it meets none; a document of a group
without a rule goes to group 0. `Lookup.multisplitRegrouped` is that definition. In strict mode a
document that meets two different conditions of its rule is a collision (`Lookup.Collision`).

The regroup works otherwise. It scans the terms of the fields its rules read, in batches, checks
every condition of a document's rule against every term the document holds there, and keeps per
document the lowest index that fired; in strict mode it fails as soon as an index fires for a
document whose slot holds another. What the scan holds after any prefix of its checks (`Matched`)
depends only on which conditions have fired for which documents, not on the order of fields,
terms, batches or documents: so in strict mode the scan fails exactly when some document has two
different conditions fire, and otherwise each slot ends holding the first condition met. The
lookup is written only after the scan, by a sweep that writes each document once.
-/

namespace GroupStats

namespace MultiRule

/-- Document `d` meets condition `i` of rule `r`. -/
def MetBy (r : MultiRule) (s : Shard) (d : DocId) (i : Nat) : Prop :=
  ∃ c, r.conditions[i]? = some c ∧ s.Meets c d

end MultiRule

namespace Shard

/-- The index of the first condition of a multi-rule that a document meets. -/
def firstMet (s : Shard) (r : MultiRule) (d : DocId) : Option Nat :=
  r.conditions.findIdx? fun c => decide (s.Meets c d)

end Shard

namespace ShardSession

/-- A regroup that fails on an open session answers the failure and leaves the session, its
lookup included, and the pool as they were. -/
theorem regroup_apply_of_error {ss : ShardSession} {r : Regroup} {e : Error} (p : Memory.Pool)
    (hc : ss.closed = false) (h : ss.regrouped r = .error e) :
    (regroup r).apply (ss, p) = (.error e, (ss, p)) := by
  rw [regroup, whenOpen_apply, if_neg (by simp [hc])]
  simp only [h, bind, Except.bind]

end ShardSession

namespace Lookup

/-! ### The definition -/

/-- Where a multi-way regroup sends document `d` of group `g`: by the first rule given for `g`, to
the destination of the first condition `d` meets, or to the rule's negative group when `d` meets
none; to 0 when `g` has no rule. -/
def multiDestination (rules : List MultiRule) (bound : UInt32) (s : Shard) (d : DocId)
    (g : GroupId) : GroupId :=
  match targetRule rules bound g with
  | none => noGroup
  | some r =>
    match s.firstMet r d with
    | none => r.negative
    | some i => r.positives.getD i noGroup

/-- The lookup a multi-way regroup leaves, by definition: every document sent by
`multiDestination`, and the bound recalculated. -/
def multisplitRegrouped (l : Lookup) (s : Shard) (rules : List MultiRule) : Lookup :=
  ofGroups (l.groups.mapIdx fun i g => multiDestination rules l.numGroups s i.toUInt32 g)

/-- Document `d` meets two different conditions `j` and `i` of the rule of its group. -/
def Collision (l : Lookup) (s : Shard) (rules : List MultiRule) (d : DocId) (j i : Nat) : Prop :=
  j ≠ i ∧ ∃ r, targetRule rules l.numGroups (l.get d) = some r ∧ r.MetBy s d j ∧ r.MetBy s d i

/-! ### The scan -/

section Scan

variable {table : RuleTable MultiRule} {l : Lookup} {strict : Bool}

/-- Condition `i` of the rule of `d`'s group has fired for `d` on a check that `seen` names: a
check of index `i` on a term `t` of field `f` that `d` holds, for which the condition fires. -/
def Fired (table : RuleTable MultiRule) (l : Lookup) (seen : Field → Term → DocId → Nat → Prop)
    (d : DocId) (i : Nat) : Prop :=
  ∃ f t r c, seen f t d i ∧ table.get? (l.get d) = some r ∧ r.conditions[i]? = some c ∧
    c.fires f t = true

/-- What the scan holds once it has made the checks that `seen` names: each document's slot holds
the lowest index fired for it, or nothing when none has, and in strict mode no document has had
two different indices fire. -/
structure Matched (table : RuleTable MultiRule) (l : Lookup) (strict : Bool)
    (seen : Field → Term → DocId → Nat → Prop) (m : Array (Option Nat)) : Prop where
  size_eq : m.size = l.size
  least : ∀ d : DocId, d.toNat < l.size → ∀ j, m.getD d.toNat none = some j →
    Fired table l seen d j ∧ ∀ i, Fired table l seen d i → j ≤ i
  unfired : ∀ d : DocId, d.toNat < l.size → m.getD d.toNat none = none →
    ∀ i, ¬ Fired table l seen d i
  single : strict = true → ∀ d i j, Fired table l seen d i → Fired table l seen d j → i = j

/-- A part of the scan either ends holding what `seen` names or, in strict mode, fails on a
document and two different indices fired for it. -/
def Keeps (table : RuleTable MultiRule) (l : Lookup) (strict : Bool)
    (seen : Field → Term → DocId → Nat → Prop) (r : Except Error (Array (Option Nat))) : Prop :=
  (∃ m, r = .ok m ∧ Matched table l strict seen m) ∨
    ∃ d j i, r = .error (.invalidArgument (.collision d j i)) ∧ strict = true ∧ j ≠ i ∧
      Fired table l seen d j ∧ Fired table l seen d i

variable {seen seen' : Field → Term → DocId → Nat → Prop} {m : Array (Option Nat)}
  {r : Except Error (Array (Option Nat))} {d : DocId} {i : Nat}

theorem Fired.mono (h : ∀ f t d i, seen f t d i → seen' f t d i) (hf : Fired table l seen d i) :
    Fired table l seen' d i := by
  obtain ⟨f, t, r, c, hs, hr, hc, hfire⟩ := hf
  exact ⟨f, t, r, c, h f t d i hs, hr, hc, hfire⟩

theorem fired_congr (h : ∀ f t d i, seen f t d i ↔ seen' f t d i) :
    Fired table l seen d i ↔ Fired table l seen' d i :=
  ⟨Fired.mono fun f t d i => (h f t d i).mp, Fired.mono fun f t d i => (h f t d i).mpr⟩

theorem fired_or {ev : Field → Term → DocId → Nat → Prop} :
    Fired table l (fun f t d i => seen f t d i ∨ ev f t d i) d i ↔
      Fired table l seen d i ∨ Fired table l ev d i := by
  constructor
  · rintro ⟨f, t, r, c, hs | hs, hr, hc, hfire⟩
    · exact .inl ⟨f, t, r, c, hs, hr, hc, hfire⟩
    · exact .inr ⟨f, t, r, c, hs, hr, hc, hfire⟩
  · rintro (h | h)
    · exact h.mono fun _ _ _ _ => .inl
    · exact h.mono fun _ _ _ _ => .inr

/-- A check of index `i` for `d` on a term `t` of field `f` fires exactly that index for that
document, when condition `i` of the rule of `d`'s group fires on the term. -/
theorem fired_check {f : Field} {t : Term} {r : MultiRule} {c : Condition}
    (hr : table.get? (l.get d) = some r) (hc : r.conditions[i]? = some c) (d' : DocId) (i' : Nat) :
    Fired table l (fun f' t' d'' i'' => f' = f ∧ t' = t ∧ d'' = d ∧ i'' = i) d' i' ↔
      d' = d ∧ i' = i ∧ c.fires f t = true := by
  constructor
  · rintro ⟨f, t, r', c', ⟨rfl, rfl, rfl, rfl⟩, hr', hc', hfire⟩
    rw [hr] at hr'
    cases hr'
    rw [hc] at hc'
    cases hc'
    exact ⟨rfl, rfl, hfire⟩
  · rintro ⟨rfl, rfl, hfire⟩
    exact ⟨f, t, r, c, ⟨rfl, rfl, rfl, rfl⟩, hr, hc, hfire⟩

theorem Matched.congr (h : Matched table l strict seen m)
    (hiff : ∀ d i, Fired table l seen d i ↔ Fired table l seen' d i) :
    Matched table l strict seen' m where
  size_eq := h.size_eq
  least d hd j hj := by
    obtain ⟨hfj, hleast⟩ := h.least d hd j hj
    exact ⟨(hiff d j).mp hfj, fun i hi => hleast i ((hiff d i).mpr hi)⟩
  unfired d hd hn i hi := h.unfired d hd hn i ((hiff d i).mpr hi)
  single hs d i j hi hj := h.single hs d i j ((hiff d i).mpr hi) ((hiff d j).mpr hj)

theorem Keeps.congr (h : Keeps table l strict seen r)
    (hiff : ∀ d i, Fired table l seen d i ↔ Fired table l seen' d i) :
    Keeps table l strict seen' r := by
  rcases h with ⟨m, rfl, hm⟩ | ⟨d, j, i, rfl, hs, hne, hj, hi⟩
  · exact .inl ⟨m, rfl, hm.congr hiff⟩
  · exact .inr ⟨d, j, i, rfl, hs, hne, (hiff d j).mp hj, (hiff d i).mp hi⟩

theorem Keeps.congr_seen (h : Keeps table l strict seen r)
    (hiff : ∀ f t d i, seen f t d i ↔ seen' f t d i) : Keeps table l strict seen' r :=
  h.congr fun _ _ => fired_congr hiff

theorem matched_start (table : RuleTable MultiRule) (l : Lookup) (strict : Bool) :
    Matched table l strict (fun _ _ _ _ => False) (Array.replicate l.size none) where
  size_eq := Array.size_replicate
  least d _ j hj := by
    simp only [Array.getD_eq_getD_getElem?, Array.getElem?_replicate] at hj
    split at hj <;> cases hj
  unfired _ _ _ i hi := by
    obtain ⟨_, _, _, _, hs, -⟩ := hi
    exact hs
  single _ _ i _ hi := by
    obtain ⟨_, _, _, _, hs, -⟩ := hi
    exact hs.elim

/-- Writing the slot of one document keeps what the scan holds when the other documents have had
the same indices fire and the written value is right for that document. -/
theorem Matched.write (hm : Matched table l strict seen m) (hd : d.toNat < l.size)
    {v : Option Nat} (hother : ∀ d' i, d' ≠ d → (Fired table l seen' d' i ↔ Fired table l seen d' i))
    (hleast : ∀ j, v = some j → Fired table l seen' d j ∧ ∀ i, Fired table l seen' d i → j ≤ i)
    (hunfired : v = none → ∀ i, ¬ Fired table l seen' d i)
    (hsingle : strict = true → ∀ i j, Fired table l seen' d i → Fired table l seen' d j → i = j) :
    Matched table l strict seen' (m.setIfInBounds d.toNat v) := by
  have hdm : d.toNat < m.size := hm.size_eq ▸ hd
  -- only the slot of `d` changes
  have hslot : ∀ d' : DocId, (m.setIfInBounds d.toNat v).getD d'.toNat none =
      if d' = d then v else m.getD d'.toNat none := by
    intro d'
    simp only [Array.getD_eq_getD_getElem?, Array.getElem?_setIfInBounds, hdm, if_true]
    by_cases hdd : d' = d
    · simp [hdd]
    · have hne : d.toNat ≠ d'.toNat := fun e => hdd (UInt32.toNat_inj.mp e).symm
      simp [hdd, hne]
  refine ⟨by rw [Array.size_setIfInBounds, hm.size_eq], fun d' hd' j hj => ?_,
    fun d' hd' hn i => ?_, fun hs d' i j => ?_⟩
  · rw [hslot] at hj
    by_cases hdd : d' = d
    · subst hdd
      exact hleast j (by simpa using hj)
    · rw [if_neg hdd] at hj
      obtain ⟨hfj, hl⟩ := hm.least d' hd' j hj
      exact ⟨(hother d' j hdd).mpr hfj, fun i hi => hl i ((hother d' i hdd).mp hi)⟩
  · rw [hslot] at hn
    by_cases hdd : d' = d
    · subst hdd
      exact hunfired (by simpa using hn) i
    · rw [if_neg hdd] at hn
      rw [hother d' i hdd]
      exact hm.unfired d' hd' hn i
  · by_cases hdd : d' = d
    · subst hdd
      exact hsingle hs i j
    · rw [hother d' i hdd, hother d' j hdd]
      exact hm.single hs d' i j

/-- Noting that index `i` fired for `d` keeps what the scan holds, once the checks made include
one that fires `i` for `d` and nothing else new. -/
theorem Matched.keeps_noteFiring (hm : Matched table l strict seen m) (hd : d.toNat < l.size)
    (hnew : ∀ d' i', Fired table l seen' d' i' ↔ Fired table l seen d' i' ∨ (d' = d ∧ i' = i)) :
    Keeps table l strict seen' (noteFiring m d i strict) := by
  have hother : ∀ d' i', d' ≠ d → (Fired table l seen' d' i' ↔ Fired table l seen d' i') := by
    intro d' i' hdd
    rw [hnew]
    simp [hdd]
  have hself : ∀ i', Fired table l seen' d i' ↔ Fired table l seen d i' ∨ i' = i := by
    intro i'
    rw [hnew]
    simp
  unfold noteFiring
  split
  · -- an index fired before: keep the lower, or collide on a different one
    rename_i j hj
    obtain ⟨hfj, hl⟩ := hm.least d hd j hj
    by_cases hcol : j ≠ i ∧ strict = true
    · rw [if_pos hcol]
      exact .inr ⟨d, j, i, rfl, hcol.2, hcol.1, (hself j).mpr (.inl hfj), (hself i).mpr (.inr rfl)⟩
    · rw [if_neg hcol]
      refine .inl ⟨_, rfl, hm.write hd hother (fun k hk => ?_) (fun h => by cases h)
        (fun hs a b ha hb => ?_)⟩
      · cases hk
        refine ⟨?_, fun a ha => ?_⟩
        · split_ifs
          · exact (hself i).mpr (.inr rfl)
          · exact (hself j).mpr (.inl hfj)
        · rcases (hself a).mp ha with ha | rfl
          · have := hl a ha
            split_ifs <;> omega
          · split_ifs <;> omega
      · -- in strict mode the index that fires is the one held, and so is every other fired
        have hji : j = i := by
          by_contra hne
          exact hcol ⟨hne, hs⟩
        have hall : ∀ x, Fired table l seen' d x → x = i := by
          intro x hx
          rcases (hself x).mp hx with hx | rfl
          · exact (hm.single hs d x j hx hfj).trans hji
          · rfl
        rw [hall a ha, hall b hb]
  · -- the first index to fire for the document
    rename_i hn
    have hnone := hm.unfired d hd hn
    have hall : ∀ x, Fired table l seen' d x → x = i := by
      intro x hx
      rcases (hself x).mp hx with hx | rfl
      · exact absurd hx (hnone x)
      · rfl
    refine .inl ⟨_, rfl, hm.write hd hother (fun k hk => ?_) (fun h => by cases h)
      (fun _ a b ha hb => by rw [hall a ha, hall b hb])⟩
    cases hk
    exact ⟨(hself i).mpr (.inr rfl), fun a ha => (hall a ha).ge⟩

/-- A fold of scan steps keeps what the scan holds when each step does: the checks add up over
the list, and the first collision stops the fold. -/
theorem keeps_foldlM {α : Type} {step : Array (Option Nat) → α → Except Error (Array (Option Nat))}
    (ev : α → Field → Term → DocId → Nat → Prop) :
    ∀ (xs : List α), (∀ x ∈ xs, ∀ seen m, Matched table l strict seen m →
        Keeps table l strict (fun f t d i => seen f t d i ∨ ev x f t d i) (step m x)) →
      ∀ seen m, Matched table l strict seen m →
        Keeps table l strict (fun f t d i => seen f t d i ∨ ∃ x ∈ xs, ev x f t d i)
          (xs.foldlM step m)
  | [], _, seen, m, hm => .inl ⟨m, rfl, hm.congr fun _ _ => fired_congr (by simp)⟩
  | x :: xs, hstep, seen, m, hm => by
    rw [List.foldlM_cons]
    rcases hstep x (List.mem_cons_self ..) seen m hm with
      ⟨m₁, h₁, hm₁⟩ | ⟨d, j, i, h₁, hs, hne, hj, hi⟩
    · rw [h₁]
      refine (keeps_foldlM ev xs (fun y hy => hstep y (List.mem_cons_of_mem _ hy)) _ m₁ hm₁).congr_seen
        fun f t d i => ?_
      simp only [List.mem_cons, exists_eq_or_imp, or_assoc]
    · have hwider : ∀ f t d i, seen f t d i ∨ ev x f t d i →
          seen f t d i ∨ ∃ y ∈ x :: xs, ev y f t d i := by
        rintro f t d i (h | h)
        · exact .inl h
        · exact .inr ⟨x, List.mem_cons_self .., h⟩
      rw [h₁]
      exact .inr ⟨d, j, i, rfl, hs, hne, hj.mono hwider, hi.mono hwider⟩

variable (h0 : table.get? noGroup = none)
include h0

/-- Checking the conditions of the rule of `d`'s group against a term `t` of field `f` that `d`
holds keeps what the scan holds. -/
theorem Matched.keeps_matchDoc (hm : Matched table l strict seen m) (f : Field) (t : Term)
    (d : DocId) :
    Keeps table l strict (fun f' t' d' i => seen f' t' d' i ∨ (f' = f ∧ t' = t ∧ d' = d))
      (l.matchDoc table strict f t m d) := by
  unfold matchDoc
  split
  · -- no rule for the group: no condition can fire for `d`
    rename_i hr
    refine .inl ⟨m, rfl, hm.congr fun d' i => ?_⟩
    rw [fired_or]
    refine ⟨.inl, ?_⟩
    rintro (h | ⟨_, _, r, _, ⟨-, -, rfl⟩, hr', -⟩)
    · exact h
    · rw [hr] at hr'
      cases hr'
  · rename_i r hr
    have hd : d.toNat < l.size := by
      by_contra hd
      rw [get_of_size_le (by omega), h0] at hr
      cases hr
    refine (keeps_foldlM (fun (p : Condition × Nat) f' t' d' i' =>
      f' = f ∧ t' = t ∧ d' = d ∧ i' = p.2) _ ?_ seen m hm).congr fun d' i' => ?_
    · rintro ⟨c, i⟩ hci seen₁ m₁ hm₁
      have hc : r.conditions[i]? = some c := List.mem_zipIdx_iff_getElem?.mp hci
      have hcheck := fired_check (f := f) (t := t) hr hc
      show Keeps table l strict _ (if c.fires f t then noteFiring m₁ d i strict else pure m₁)
      split
      · rename_i hfire
        refine hm₁.keeps_noteFiring hd fun d' i' => ?_
        rw [fired_or, hcheck]
        simp [hfire]
      · rename_i hfire
        refine .inl ⟨m₁, rfl, hm₁.congr fun d' i' => ?_⟩
        rw [fired_or, hcheck]
        simp [hfire]
    · -- the checks of every index of the rule are the check of the document on the term
      rw [fired_or, fired_or]
      refine or_congr_right ⟨?_, ?_⟩
      · rintro ⟨f', t', r', c', ⟨p, -, rfl, rfl, rfl, rfl⟩, hr', hc', hfire⟩
        exact ⟨f', t', r', c', ⟨rfl, rfl, rfl⟩, hr', hc', hfire⟩
      · rintro ⟨f', t', r', c', ⟨rfl, rfl, rfl⟩, hr', hc', hfire⟩
        rw [hr] at hr'
        cases hr'
        exact ⟨f', t', r, c', ⟨(c', i'), List.mem_zipIdx_iff_getElem?.mpr hc', rfl, rfl, rfl, rfl⟩,
          hr, hc', hfire⟩

/-- The whole scan, over the fields of the table in any batch size, either holds what checking
every document against every term it holds in those fields gives, or fails in strict mode on a
document with two different indices fired. -/
theorem keeps_matchConditions (s : Shard) (batch : Nat) :
    Keeps table l strict
      (fun f t d _ => f ∈ table.fields ∧ ∃ docs, (t, docs) ∈ s.lists f ∧ d ∈ docs)
      (l.matchConditions s batch table strict) := by
  unfold matchConditions
  refine (keeps_foldlM (fun f₀ f t d _ => f = f₀ ∧ ∃ p ∈ s.visits f₀ batch, t = p.1 ∧ d ∈ p.2)
    table.fields ?_ _ _ (matched_start table l strict)).congr_seen ?_
  · intro f₀ _ seen m hm
    refine (keeps_foldlM (fun (p : Term × List DocId) f t d _ => f = f₀ ∧ t = p.1 ∧ d ∈ p.2)
      _ ?_ seen m hm).congr_seen ?_
    · rintro ⟨t₀, docs⟩ _ seen₁ m₁ hm₁
      refine (keeps_foldlM (fun d₀ f t d _ => f = f₀ ∧ t = t₀ ∧ d = d₀) docs
        (fun d₀ _ seen₂ m₂ hm₂ => hm₂.keeps_matchDoc h0 f₀ t₀ d₀) seen₁ m₁ hm₁).congr_seen ?_
      intro f t d i
      constructor
      · rintro (h | ⟨_, hd, rfl, rfl, rfl⟩)
        · exact .inl h
        · exact .inr ⟨rfl, rfl, hd⟩
      · rintro (h | ⟨rfl, rfl, hd⟩)
        · exact .inl h
        · exact .inr ⟨d, hd, rfl, rfl, rfl⟩
    · intro f t d i
      constructor
      · rintro (h | ⟨p, hp, rfl, rfl, hd⟩)
        · exact .inl h
        · exact .inr ⟨rfl, p, hp, rfl, hd⟩
      · rintro (h | ⟨rfl, p, hp, rfl, hd⟩)
        · exact .inl h
        · exact .inr ⟨p, hp, rfl, rfl, hd⟩
  · intro f t d i
    rw [← @Shard.mem_visits s f batch t d]
    constructor
    · rintro (h | ⟨f₀, hf, rfl, ⟨t', ch⟩, hv, rfl, hd⟩)
      · exact h.elim
      · exact ⟨hf, ch, hv, hd⟩
    · rintro ⟨hf, ch, hv, hd⟩
      exact .inr ⟨f, hf, rfl, (t, ch), hv, rfl, hd⟩

end Scan

/-! ### What the scan finds -/

section Found

variable {l : Lookup} {s : Shard} {rules : List MultiRule} {table : RuleTable MultiRule}
  {strict : Bool} {m : Array (Option Nat)} {d : DocId}

/-- After the whole scan of a table built from the rules, index `i` has fired for `d` exactly when
`d` meets condition `i` of the rule of its group. -/
theorem fired_scan_iff (hb : RuleTable.Built l.numGroups rules table) (d : DocId) (i : Nat) :
    Fired table l (fun f t d _ => f ∈ table.fields ∧ ∃ docs, (t, docs) ∈ s.lists f ∧ d ∈ docs)
      d i ↔ ∃ r, targetRule rules l.numGroups (l.get d) = some r ∧ r.MetBy s d i := by
  constructor
  · rintro ⟨f, t, r, c, ⟨-, docs, hmem, hdoc⟩, hr, hc, hfire⟩
    obtain ⟨rfl, hadm⟩ := (Condition.fires_iff ..).mp hfire
    exact ⟨r, (hb.get? _).symm.trans hr, c, hc, (t, docs), hmem, hdoc, hadm⟩
  · rintro ⟨r, hr, c, hc, ⟨t, docs⟩, hmem, hdoc, hadm⟩
    have hr' : table.get? (l.get d) = some r := (hb.get? _).trans hr
    exact ⟨c.field, t, r, c, ⟨hb.fields _ r hr' c (List.mem_of_getElem? hc), docs, hmem, hdoc⟩,
      hr', hc, (Condition.fires_iff ..).mpr ⟨rfl, hadm⟩⟩

/-- In strict mode the scan meets two different indices fired for a document exactly at a
collision. -/
theorem collision_iff_fired (hb : RuleTable.Built l.numGroups rules table) (j i : Nat) :
    l.Collision s rules d j i ↔ j ≠ i ∧
      Fired table l (fun f t d _ => f ∈ table.fields ∧ ∃ docs, (t, docs) ∈ s.lists f ∧ d ∈ docs)
        d j ∧
      Fired table l (fun f t d _ => f ∈ table.fields ∧ ∃ docs, (t, docs) ∈ s.lists f ∧ d ∈ docs)
        d i := by
  rw [fired_scan_iff hb, fired_scan_iff hb]
  constructor
  · rintro ⟨hne, r, hr, hj, hi⟩
    exact ⟨hne, ⟨r, hr, hj⟩, ⟨r, hr, hi⟩⟩
  · rintro ⟨hne, ⟨r, hr, hj⟩, ⟨r', hr', hi⟩⟩
    rw [hr] at hr'
    cases hr'
    exact ⟨hne, r, hr, hj, hi⟩

/-- After the whole scan, the slot of a document of a ruled group holds the first condition of the
rule that the document meets. -/
theorem Matched.slot_eq_firstMet (hb : RuleTable.Built l.numGroups rules table)
    (hm : Matched table l strict
      (fun f t d _ => f ∈ table.fields ∧ ∃ docs, (t, docs) ∈ s.lists f ∧ d ∈ docs) m)
    (hd : d.toNat < l.size) {r : MultiRule} (hr : targetRule rules l.numGroups (l.get d) = some r) :
    m.getD d.toNat none = s.firstMet r d := by
  have hfired : ∀ i, Fired table l
      (fun f t d _ => f ∈ table.fields ∧ ∃ docs, (t, docs) ∈ s.lists f ∧ d ∈ docs) d i ↔
        r.MetBy s d i := by
    intro i
    rw [fired_scan_iff hb]
    constructor
    · rintro ⟨r', hr', h⟩
      rw [hr] at hr'
      cases hr'
      exact h
    · exact fun h => ⟨r, hr, h⟩
  symm
  cases hslot : m.getD d.toNat none with
  | none =>
    rw [Shard.firstMet, List.findIdx?_eq_none_iff]
    intro c hc
    obtain ⟨i, hi⟩ := List.mem_iff_getElem?.mp hc
    by_contra hmeet
    exact hm.unfired d hd hslot i ((hfired i).mpr ⟨c, hi, by simpa using hmeet⟩)
  | some j =>
    obtain ⟨hfj, hleast⟩ := hm.least d hd j hslot
    obtain ⟨c, hc, hmeet⟩ := (hfired j).mp hfj
    obtain ⟨hj, rfl⟩ := List.getElem?_eq_some_iff.mp hc
    rw [Shard.firstMet, List.findIdx?_eq_some_iff_getElem]
    refine ⟨hj, by simpa using hmeet, fun k hk hmeet' => ?_⟩
    have := hleast k ((hfired k).mpr ⟨_, List.getElem?_eq_getElem _, by simpa using hmeet'⟩)
    omega

end Found

/-! ### The sweep -/

/-- What a lookup says of its documents depends on its groups alone. -/
theorem size_of_groups_eq {l l' : Lookup} (h : l'.groups = l.groups) : l'.size = l.size := by
  simp only [size, h]

theorem get_of_groups_eq {l l' : Lookup} (h : l'.groups = l.groups) (d : DocId) :
    l'.get d = l.get d := by
  simp only [get, h]

section Sweep

variable {W : Nat → GroupId → GroupId} {F : Lookup → Nat → Lookup}

/-- A sweep that visits the ids in order and writes each document once, from its id and its
group, writes every document from the group it held before the sweep. Only the groups of each
step count: a step may leave the bound as it was where a write would raise it. -/
theorem sweep_write (hF : ∀ l i, (F l i).groups = (l.set i.toUInt32 (W i (l.get i.toUInt32))).groups)
    {l : Lookup} (hsize : l.size ≤ 2 ^ 32) :
    ∀ k ≤ l.size, ((List.range k).foldl F l).size = l.size ∧
      ∀ d : DocId, d.toNat < l.size →
        ((List.range k).foldl F l).get d = if d.toNat < k then W d.toNat (l.get d) else l.get d
  | 0, _ => ⟨rfl, fun d _ => by simp⟩
  | k + 1, hk => by
    obtain ⟨hsz, hget⟩ := sweep_write hF hsize k (by omega)
    have hkd : k.toUInt32.toNat = k := by simp; omega
    rw [List.range_succ, List.foldl_append, List.foldl_cons, List.foldl_nil]
    have hg := hF ((List.range k).foldl F l) k
    refine ⟨by rw [size_of_groups_eq hg, size_set, hsz], fun d hd => ?_⟩
    rw [get_of_groups_eq hg]
    by_cases hdk : d = k.toUInt32
    · subst hdk
      rw [get_set_self (by rw [hsz]; omega), hget _ (by omega)]
      simp [hkd]
    · have hne : d.toNat ≠ k := fun e => hdk (UInt32.toNat_inj.mp (by rw [e, hkd]))
      have hlt : d.toNat < k + 1 ↔ d.toNat < k := by omega
      rw [get_set_of_ne hdk, hget d hd]
      simp only [hlt]

end Sweep

/-! ### The regroup -/

section Regroup

variable {l : Lookup} {s : Shard} {batch : Nat} {rules : List MultiRule}
  {table : RuleTable MultiRule} {strict : Bool} {m : Array (Option Nat)}

/-- Where valid rules send a document lies below `maxNumGroups`. -/
theorem multiDestination_lt (hv : ∀ r ∈ rules, Targeted.Valid r) (n : UInt32) (s : Shard)
    (d : DocId) (g : GroupId) : multiDestination rules n s d g < maxNumGroups := by
  unfold multiDestination
  split
  · decide
  · rename_i r hr
    have hdest := (hv r (mem_of_targetRule hr)).2
    split
    · exact hdest _ (by simp [Targeted.destinations])
    · exact getD_lt_of_forall (fun g hg => hdest g (by simp [Targeted.destinations, hg])) _

/-- The reference of valid rules has its bound one past its largest group. -/
theorem multisplitRegrouped_exact (hv : ∀ r ∈ rules, Targeted.Valid r) :
    (l.multisplitRegrouped s rules).Exact := by
  unfold multisplitRegrouped ofGroups
  apply recalculate_exact
  intro g hg
  obtain ⟨i, hi, rfl⟩ := Array.mem_mapIdx.mp hg
  exact ne_lastGroup_of_lt (multiDestination_lt hv _ s _ _)

/-- The sweep's target for a document, read from the slot the whole scan left, is where the
reference sends it. -/
theorem Matched.multiTarget_eq (hb : RuleTable.Built l.numGroups rules table)
    (hm : Matched table l strict
      (fun f t d _ => f ∈ table.fields ∧ ∃ docs, (t, docs) ∈ s.lists f ∧ d ∈ docs) m)
    {d : DocId} (hd : d.toNat < l.size) :
    multiTarget table (m.getD d.toNat none) (l.get d) =
      multiDestination rules l.numGroups s d (l.get d) := by
  unfold multiTarget multiDestination
  rw [← hb.get?]
  cases hr : table.get? (l.get d) with
  | none => rfl
  | some r =>
    dsimp only
    have hslot := hm.slot_eq_firstMet hb hd ((hb.get? _).symm.trans hr)
    cases hf : s.firstMet r d <;> simp only [hslot, hf]

/-- With a table built from the rules and a scan that went through, the regroup computes the
reference. -/
theorem multisplit_of_scan (hsize : l.size ≤ 2 ^ 32)
    (hbuild : RuleTable.build rules l.numGroups = .ok table)
    (hb : RuleTable.Built l.numGroups rules table)
    (hscan : l.matchConditions s batch table strict = .ok m)
    (hm : Matched table l strict
      (fun f t d _ => f ∈ table.fields ∧ ∃ docs, (t, docs) ∈ s.lists f ∧ d ∈ docs) m) :
    l.multisplit s batch rules strict = .ok (l.multisplitRegrouped s rules) := by
  obtain ⟨hsz, hget⟩ := sweep_write (W := fun i g => multiTarget table (m.getD i none) g)
    (fun _ _ => rfl) hsize l.size le_rfl
  have hgroups := groups_eq_mapIdx (D := multiDestination rules l.numGroups s) hsize hsz
    fun d hd => by
    rw [hget d hd, if_pos hd]
    exact hm.multiTarget_eq hb hd
  simp only [multisplit, hbuild, hscan, bind, Except.bind, pure, Except.pure]
  simp only [multisplitRegrouped, ofGroups, recalculate, hgroups]

/-- A multi-way regroup sends every document by the first rule for its group to the destination of
the first condition it meets, to the negative group when it meets none, and to 0 for group 0 or no
rule, whatever the batch size. In strict mode it fails exactly when a document meets two different
conditions of its rule, and a session running it is left as it was. -/
theorem multisplit_eq_multisplitRegrouped (l : Lookup) (s : Shard) (batch : Nat)
    (rules : List MultiRule) (strict : Bool) (hsize : l.size ≤ 2 ^ 32)
    (hv : ∀ r ∈ rules, Targeted.Valid r) :
    ((strict = false ∨ ∀ d j i, ¬ l.Collision s rules d j i) →
      l.multisplit s batch rules strict = .ok (l.multisplitRegrouped s rules) ∧
        (l.multisplitRegrouped s rules).Exact) ∧
    (strict = true → (∃ d j i, l.Collision s rules d j i) →
      ∃ d j i, l.multisplit s batch rules strict = .error (.invalidArgument (.collision d j i)) ∧
        l.Collision s rules d j i ∧
        ∀ (ss : ShardSession) (p : Memory.Pool), ss.lookup = l → ss.shard = s → ss.batch = batch →
          ss.closed = false → (ShardSession.regroup (.multisplit rules strict)).apply (ss, p) =
            (.error (.invalidArgument (.collision d j i)), (ss, p))) := by
  obtain ⟨table, hbuild, hb⟩ := RuleTable.built_build hv l.numGroups
  have h0 : table.get? noGroup = none := by rw [hb.get?]; exact targetRule_zero _ _
  have hkeep : Keeps table l strict _ (l.matchConditions s batch table strict) :=
    keeps_matchConditions h0 s batch
  rcases hkeep with
    ⟨m, hscan, hm⟩ | ⟨d, j, i, hscan, hs, hne, hj, hi⟩
  · -- the scan went through, so in strict mode no document collides
    refine ⟨fun _ => ⟨multisplit_of_scan hsize hbuild hb hscan hm, multisplitRegrouped_exact hv⟩,
      fun hs ⟨d, j, i, hc⟩ => ?_⟩
    obtain ⟨hne, hj, hi⟩ := (collision_iff_fired hb j i).mp hc
    exact absurd (hm.single hs d j i hj hi) hne
  · -- the scan failed on a document with two conditions met
    have hc : l.Collision s rules d j i := (collision_iff_fired hb j i).mpr ⟨hne, hj, hi⟩
    have herr : l.multisplit s batch rules strict =
        .error (.invalidArgument (.collision d j i)) := by
      simp only [multisplit, hbuild, hscan, bind, Except.bind]
    have hsession : ∀ (ss : ShardSession) (p : Memory.Pool), ss.lookup = l → ss.shard = s →
        ss.batch = batch → ss.closed = false →
          (ShardSession.regroup (.multisplit rules strict)).apply (ss, p) =
            (.error (.invalidArgument (.collision d j i)), (ss, p)) := by
      intro ss p hl hshard hbatch hclosed
      refine ShardSession.regroup_apply_of_error p hclosed ?_
      show ss.lookup.multisplit ss.shard ss.batch rules strict = _
      rw [hl, hshard, hbatch]
      exact herr
    refine ⟨fun hno => ?_, fun _ _ => ⟨d, j, i, herr, hc, hsession⟩⟩
    rcases hno with hf | hno
    · rw [hs] at hf
      cases hf
    · exact absurd hc (hno d j i)

theorem multisplit_eq_multisplitRegrouped_two_rules :
    let l : Lookup := ⟨#[1, 2, 1, 0], 3⟩
    let s : Shard := { numDocs := 4, intFields := [("x", [(.int 5, [0, 3]), (.int 7, [0, 2])])] }
    let rules : List MultiRule :=
      [⟨1, 6, [.intEq "x" 7, .intLe "x" 5], [4, 5]⟩, ⟨2, 9, [.intEq "x" 7], [8]⟩]
    l.size ≤ 2 ^ 32 ∧ (∀ r ∈ rules, Targeted.Valid r) ∧
      l.multisplit s 1 rules false = .ok (l.multisplitRegrouped s rules) := by
  intro l s rules
  have hsize : l.size ≤ 2 ^ 32 := by decide
  have hv : ∀ r ∈ rules, Targeted.Valid r := by
    simp [rules, Targeted.Valid, Targeted.conditions, Targeted.destinations, Condition.intEq,
      Condition.intLe, maxNumGroups, Term.fieldType, Field.int, or_imp, forall_and]
  exact ⟨hsize, hv, ((multisplit_eq_multisplitRegrouped l s 1 rules false hsize hv).1 (.inl rfl)).1⟩

/- Document 0 holds 5 and 7 and meets both conditions of its rule, the first of which sends it to
4; document 2 holds only 7, to 4 as well; document 1 holds nothing and misses `x = 7`; document 3
is in group 0. -/
example : (Lookup.multisplitRegrouped ⟨#[1, 2, 1, 0], 3⟩
    { numDocs := 4, intFields := [("x", [(.int 5, [0, 3]), (.int 7, [0, 2])])] }
    [⟨1, 6, [.intEq "x" 7, .intLe "x" 5], [4, 5]⟩, ⟨2, 9, [.intEq "x" 7], [8]⟩]) =
      ⟨#[4, 9, 4, 0], 10⟩ := by
  decide

end Regroup

end Lookup

end GroupStats
