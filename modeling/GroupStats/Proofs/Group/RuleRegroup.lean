import GroupStats.Proofs.Group.Bound

/-!
# Rule regroups by their definition

A rule regroup sends each document by the first rule given for its group, when that group is
not 0 and lies below the lookup's bound: to the rule's positive group when the document holds, in
the field of the rule's condition, a term the condition admits, and to its negative group
otherwise; a document of a group without a rule goes to group 0. `Lookup.ruleRegrouped` is that
definition, and `regroup_eq_ruleRegrouped` shows the regroup computes it whenever its rules are
valid, whatever the batch size.

The regroup works otherwise: it scans the terms of the fields the rules read, in batches, and
moves a document to the positive group of its rule as soon as a term fires, marking it; a final
sweep sends the unmarked documents of ruled groups to the negative group and the others to 0.
A moved document is never looked at again, so the rule of its new group never fires for it: what
the scan has done after any prefix of the visits (`Scanned`) depends only on which documents were
seen with which terms, not on the order of the visits.
-/

namespace GroupStats

/-! ### Conditions -/

namespace Condition

/-- Whether a term meets a condition's test, whatever its field: it equals the condition's term,
or for an inequality lies at or below it, numerically for integers and bytewise for strings. A
term of the other type never does. -/
def Admits (c : Condition) (t : Term) : Prop :=
  match c.term, t with
  | .int bound, .int v => if c.inequality then v ≤ bound else v = bound
  | .bytes bound, .bytes v => if c.inequality then Bytes.compareLex v bound ≠ .gt else v = bound
  | _, _ => False

/-- A condition fires for a term of a field exactly when the field is the condition's and the
term meets its test. -/
theorem fires_iff (c : Condition) (f : Field) (t : Term) :
    c.fires f t = true ↔ c.field = f ∧ c.Admits t := by
  obtain ⟨field, term, inequality⟩ := c
  cases term <;> cases t <;> cases inequality <;> simp [fires, Admits]

instance (c : Condition) (t : Term) : Decidable (c.Admits t) :=
  decidable_of_iff (c.fires c.field t = true) (by rw [fires_iff]; simp)

end Condition

namespace Shard

/-- Whether a document holds, in the field of a condition, a term the condition admits. -/
def Meets (s : Shard) (c : Condition) (d : DocId) : Prop :=
  ∃ p ∈ s.lists c.field, d ∈ p.2 ∧ c.Admits p.1

instance (s : Shard) (c : Condition) (d : DocId) : Decidable (s.Meets c d) :=
  inferInstanceAs (Decidable (∃ p ∈ s.lists c.field, d ∈ p.2 ∧ c.Admits p.1))

/-- The documents a scan of a field sees with a term are those its list gives the term, whatever
the batch size. -/
theorem mem_visits {s : Shard} {f : Field} {batch : Nat} {t : Term} {d : DocId} :
    (∃ ch, (t, ch) ∈ s.visits f batch ∧ d ∈ ch) ↔ ∃ docs, (t, docs) ∈ s.lists f ∧ d ∈ docs := by
  simp only [visits, List.mem_flatMap, List.mem_map, Prod.mk.injEq]
  constructor
  · rintro ⟨ch, ⟨⟨t', docs⟩, hp, ch', hch, rfl, rfl⟩, hd⟩
    exact ⟨docs, hp, by rw [← flatten_chunks batch docs]; exact List.mem_flatten.mpr ⟨_, hch, hd⟩⟩
  · rintro ⟨docs, hp, hd⟩
    rw [← flatten_chunks batch docs] at hd
    obtain ⟨ch, hch, hd⟩ := List.mem_flatten.mp hd
    exact ⟨ch, ⟨(t, docs), hp, ch, hch, rfl, rfl⟩, hd⟩

end Shard

/-! ### The definition -/

/-- The rule a regroup applies to the documents of group `g` of a lookup with bound `bound`: the
first rule given for `g`, when `g` is not 0 and lies below the bound. -/
def ruleFor (rules : List Rule) (bound : UInt32) (g : GroupId) : Option Rule :=
  if g = noGroup ∨ bound ≤ g then none else rules.find? (·.target == g)

/-- Where a rule regroup sends document `d` of group `g`. -/
def ruleDestination (rules : List Rule) (bound : UInt32) (s : Shard) (d : DocId) (g : GroupId) :
    GroupId :=
  match ruleFor rules bound g with
  | none => noGroup
  | some r => if s.Meets r.condition d then r.positive else r.negative

/-- A rule is valid when its condition compares against a term of its field's type and both its
destinations lie below `maxNumGroups`. -/
def Rule.Valid (r : Rule) : Prop :=
  r.condition.term.fieldType = r.condition.field.type ∧ r.negative < maxNumGroups ∧
    r.positive < maxNumGroups

instance (r : Rule) : Decidable r.Valid :=
  inferInstanceAs (Decidable (r.condition.term.fieldType = r.condition.field.type ∧
    r.negative < maxNumGroups ∧ r.positive < maxNumGroups))

/-! ### Rule tables -/

namespace RuleTable

/-- An entry inserted under a new group is found under that group, and nothing else moves. -/
theorem find?_insertEntry {ρ : Type} {x : GroupId × ρ} :
    ∀ {xs : List (GroupId × ρ)}, (∀ e ∈ xs, e.1 ≠ x.1) → ∀ k : GroupId,
      (insertEntry x xs).find? (·.1 == k) = if x.1 = k then some x else xs.find? (·.1 == k)
  | [], _, k => by by_cases hk : x.1 = k <;> simp [insertEntry, hk]
  | y :: ys, hxs, k => by
    have hy : y.1 ≠ x.1 := hxs y (List.mem_cons_self ..)
    simp only [insertEntry]
    split
    · by_cases hk : x.1 = k <;> simp [hk]
    · have ih := find?_insertEntry (fun e he => hxs e (List.mem_cons_of_mem _ he)) k
      by_cases hk : x.1 = k
      · subst hk
        simp [hy, ih]
      · by_cases hyk : y.1 = k <;> simp [hyk, hk, ih]

/-- A table built from the rules `done` for a lookup of bound `n`: the rule it gives a group is
the rule a regroup applies to it, and the fields it scans hold the field of every rule it
gives. -/
structure Indexes (n : UInt32) (done : List Rule) (t : RuleTable Rule) : Prop where
  get? : ∀ g, t.get? g = ruleFor done n g
  fields : ∀ g r, t.get? g = some r → r.condition.field ∈ t.fields

theorem indexes_empty (n : UInt32) : Indexes n [] {} where
  get? g := by simp [get?, ruleFor]
  fields g r h := by simp [get?] at h

theorem add_of_valid {n : UInt32} {t : RuleTable Rule} {r : Rule} (hr : r.Valid) :
    add n t r = .ok (if r.target = noGroup ∨ r.target ≥ n then t
      else if t.entries.any (·.1 == r.target) then t
      else { entries := insertEntry (r.target, r) t.entries,
             fields := if t.fields.contains r.condition.field then t.fields
               else t.fields ++ [r.condition.field] }) := by
  obtain ⟨hty, hneg, hpos⟩ := hr
  have hcheck : checkGroups [r.negative, r.positive] = .ok () := by
    rw [checkGroups_eq_ok]
    simp [hneg, hpos]
  simp [add, Targeted.conditions, Targeted.destinations, Targeted.target, Condition.validate, hty,
    hcheck, bind, Except.bind, pure, Except.pure]
  split_ifs <;> rfl

/-- The rule a table gives a group is found among its entries. -/
theorem get?_eq_none_iff {t : RuleTable Rule} {g : GroupId} :
    t.get? g = none ↔ (t.entries.any (·.1 == g)) = false := by
  simp [get?, List.find?_eq_none]

/-- Appending a rule changes the rule of no other group. -/
theorem ruleFor_append_of_ne {done : List Rule} {r : Rule} {n : UInt32} {g : GroupId}
    (hrg : r.target ≠ g) : ruleFor (done ++ [r]) n g = ruleFor done n g := by
  unfold ruleFor
  split_ifs
  · rfl
  · simp [List.find?_append, hrg]

/-- Appending a rule for a group that has one already keeps the first. -/
theorem ruleFor_append_of_isSome {done : List Rule} {r : Rule} {n : UInt32} {g : GroupId}
    (h : (done.find? (·.target == g)).isSome) : ruleFor (done ++ [r]) n g = ruleFor done n g := by
  unfold ruleFor
  split_ifs
  · rfl
  · obtain ⟨r', hr'⟩ := Option.isSome_iff_exists.mp h
    simp [List.find?_append, hr']

/-- Adding a valid rule to a table built from `done` gives the table built from `done` and the
rule: a rule for a group that has one already, or for group 0 or a group past the bound, is
dropped, and a rule for a new group is found under it and adds the field it reads. -/
theorem Indexes.add {n : UInt32} {done : List Rule} {t : RuleTable Rule} {r : Rule}
    (h : Indexes n done t) (hr : r.Valid) : ∃ t', add n t r = .ok t' ∧ Indexes n (done ++ [r]) t' := by
  rw [add_of_valid hr]
  refine ⟨_, rfl, ?_⟩
  by_cases hout : r.target = noGroup ∨ r.target ≥ n
  · -- the rule can reach no document: nothing changes
    rw [if_pos hout]
    refine ⟨fun g => ?_, h.fields⟩
    rw [h.get? g]
    by_cases hrg : r.target = g
    · subst hrg
      simp [ruleFor, hout]
    · exact (ruleFor_append_of_ne hrg).symm
  · rw [if_neg hout]
    by_cases hany : (t.entries.any (·.1 == r.target)) = true
    · -- the group has a rule already, which stays first
      rw [if_pos hany]
      have hfirst : (done.find? (·.target == r.target)).isSome := by
        have hsome := (not_congr get?_eq_none_iff).mpr (by simpa using hany)
        rw [h.get? r.target, ruleFor, if_neg hout] at hsome
        exact Option.isSome_iff_ne_none.mpr hsome
      refine ⟨fun g => ?_, h.fields⟩
      rw [h.get? g]
      by_cases hrg : r.target = g
      · subst hrg
        exact (ruleFor_append_of_isSome hfirst).symm
      · exact (ruleFor_append_of_ne hrg).symm
    · -- a rule for a new group: found under it, with its field
      rw [if_neg hany]
      have hnone : t.get? r.target = none := get?_eq_none_iff.mpr (Bool.eq_false_iff.mpr hany)
      have hfree : ∀ e ∈ t.entries, e.1 ≠ r.target := by
        intro e he hre
        exact hany (List.any_eq_true.mpr ⟨e, he, by simp [hre]⟩)
      have hget : ∀ (fs : List Field) g, RuleTable.get? ⟨insertEntry (r.target, r) t.entries, fs⟩ g =
          if r.target = g then some r else t.get? g := by
        intro fs g
        simp only [RuleTable.get?, find?_insertEntry (x := (r.target, r)) hfree g]
        split <;> rfl
      refine ⟨fun g => ?_, fun g r' hr' => ?_⟩
      · rw [hget _ g]
        by_cases hrg : r.target = g
        · subst hrg
          have hdone : done.find? (·.target == r.target) = none := by
            rw [h.get? r.target, ruleFor, if_neg hout] at hnone
            exact hnone
          simp [ruleFor, hout, List.find?_append, hdone]
        · rw [if_neg hrg, h.get? g]
          exact (ruleFor_append_of_ne hrg).symm
      · rw [hget _ g] at hr'
        split at hr'
        · cases hr'
          split <;> simp_all
        · have := h.fields g r' hr'
          split <;> simp_all

/-- Indexing valid rules goes through, and gives the table of those rules. -/
theorem indexes_build {rules : List Rule} (hv : ∀ r ∈ rules, r.Valid) (n : UInt32) :
    ∃ t, build rules n = .ok t ∧ Indexes n rules t := by
  suffices ∀ (rs done : List Rule) (acc : RuleTable Rule), (∀ r ∈ rs, r.Valid) →
      Indexes n done acc → ∃ t, rs.foldlM (add n) acc = .ok t ∧ Indexes n (done ++ rs) t from
    this rules [] {} hv (indexes_empty n)
  intro rs
  induction rs with
  | nil =>
    intro done acc _ h
    exact ⟨acc, rfl, by simpa using h⟩
  | cons r rs ih =>
    intro done acc hv h
    obtain ⟨t', hadd, ht'⟩ := h.add (hv r (List.mem_cons_self ..))
    obtain ⟨t, hrun, ht⟩ := ih (done ++ [r]) t' (fun r' hr' => hv r' (List.mem_cons_of_mem _ hr')) ht'
    refine ⟨t, ?_, by simpa using ht⟩
    rw [List.foldlM_cons, hadd]
    exact hrun

/-- Checking destinations either passes or names a group past the bound. -/
theorem checkGroups_cases (gs : List GroupId) :
    checkGroups gs = .ok () ∨ ∃ g, checkGroups gs = .error (.invalidArgument (.groupTooLarge g)) := by
  unfold checkGroups
  split
  · exact .inr ⟨_, rfl⟩
  · exact .inl rfl

/-- A group list with a group at or past `maxNumGroups` fails its check. -/
theorem checkGroups_refused (gs : List GroupId) (h : ∃ g ∈ gs, maxNumGroups ≤ g) :
    ∃ g, checkGroups gs = .error (.invalidArgument (.groupTooLarge g)) := by
  rcases RuleTable.checkGroups_cases gs with hc | hc
  · obtain ⟨g, hg, hge⟩ := h
    exact absurd (checkGroups_eq_ok.mp hc g hg) (UInt32.not_lt.mpr hge)
  · exact hc

/-- Adding a rule that is not valid fails with an invalid argument. -/
theorem add_of_not_valid {n : UInt32} {t : RuleTable Rule} {r : Rule} (hr : ¬ r.Valid) :
    ∃ fault, add n t r = .error (.invalidArgument fault) := by
  by_cases hty : r.condition.term.fieldType = r.condition.field.type
  · rcases checkGroups_cases [r.negative, r.positive] with hc | ⟨g, hc⟩
    · exact absurd ⟨hty, by simpa using checkGroups_eq_ok.mp hc⟩ hr
    · exact ⟨.groupTooLarge g, by simp [add, Targeted.conditions, Targeted.destinations,
        Condition.validate, hty, hc, bind, Except.bind, pure, Except.pure]⟩
  · exact ⟨.conditionType r.condition.field r.condition.term.fieldType,
      by simp [add, Targeted.conditions, Condition.validate, hty, bind, Except.bind]⟩

/-- Indexing rules of which one is not valid fails with an invalid argument. -/
theorem build_of_not_valid {rules : List Rule} (hbad : ∃ r ∈ rules, ¬ r.Valid) (n : UInt32) :
    ∃ fault, build rules n = .error (.invalidArgument fault) := by
  suffices ∀ (acc : RuleTable Rule), ∃ fault, rules.foldlM (add n) acc = .error (.invalidArgument fault)
    from this {}
  induction rules with
  | nil => simp at hbad
  | cons r rs ih =>
    intro acc
    rw [List.foldlM_cons]
    by_cases hr : r.Valid
    · obtain ⟨r', hr', hbad'⟩ := hbad
      rcases List.mem_cons.mp hr' with rfl | hr'
      · exact absurd hr hbad'
      · rw [add_of_valid hr]
        exact ih ⟨r', hr', hbad'⟩ _
    · obtain ⟨fault, hadd⟩ := add_of_not_valid (n := n) (t := acc) hr
      exact ⟨fault, by rw [hadd]; rfl⟩

end RuleTable

namespace DocBits

theorem mem_insertSorted {x j : Nat} : ∀ {xs : List Nat}, j ∈ insertSorted x xs ↔ j = x ∨ j ∈ xs
  | [] => by simp [insertSorted]
  | y :: ys => by
    simp only [insertSorted]
    split
    · simp
    · split
      · rename_i hxy
        subst hxy
        simp only [List.mem_cons]
        constructor
        · exact .inr
        · rintro (rfl | h)
          · exact .inl rfl
          · exact h
      · simp only [List.mem_cons, mem_insertSorted]
        tauto

/-- Marking an id leaves the marks of the others. -/
theorem get_set_of_ne (b : DocBits) {i j : Nat} (h : j ≠ i) : (b.set i).get j = b.get j := by
  simp [get, set, mem_insertSorted, h]

end DocBits

namespace Lookup

section Get

variable {l : Lookup} {d d' : DocId}

theorem get_eq_getElem (h : d.toNat < l.size) : l.get d = l.groups[d.toNat] := by
  simp [get, Array.getD_eq_getD_getElem?, Array.getElem?_eq_getElem h]

theorem get_of_size_le (h : l.size ≤ d.toNat) : l.get d = noGroup := by
  have h' : l.groups.size ≤ d.toNat := h
  simp [get, Array.getD_eq_getD_getElem?, Array.getElem?_eq_none h', noGroup]

theorem get_set_self (h : d.toNat < l.size) (g : GroupId) : (l.set d g).get d = g := by
  have h' : d.toNat < l.groups.size := h
  simp [get, Array.getD_eq_getD_getElem?, h']

theorem get_set_of_ne (h : d' ≠ d) (g : GroupId) : (l.set d g).get d' = l.get d' := by
  have : d.toNat ≠ d'.toNat := fun e => h (UInt32.toNat_inj.mp e).symm
  simp [get, Array.getD_eq_getD_getElem?, this]

/-- A lookup of the same size that gives every document a group computed from its id and its old
group holds the old groups mapped by that computation. -/
theorem groups_eq_mapIdx {l' : Lookup} {D : DocId → GroupId → GroupId} (hsize : l.size ≤ 2 ^ 32)
    (hsz : l'.size = l.size) (hget : ∀ d : DocId, d.toNat < l.size → l'.get d = D d (l.get d)) :
    l'.groups = l.groups.mapIdx fun i g => D i.toUInt32 g := by
  refine Array.ext (by rw [Array.size_mapIdx]; exact hsz) fun i hi _ => ?_
  have hi' : i < l.size := by rw [← hsz]; exact hi
  have hid : i.toUInt32.toNat = i := by simp; omega
  have e₁ := get_eq_getElem (l := l') (d := i.toUInt32) (by rw [hid, hsz]; exact hi')
  have e₂ := get_eq_getElem (l := l) (d := i.toUInt32) (by rw [hid]; exact hi')
  simp only [hid] at e₁ e₂
  rw [Array.getElem_mapIdx, ← e₁, ← e₂]
  exact hget _ (by rw [hid]; exact hi')

end Get

/-! ### The scan -/

/-- What a rule scan of the lookup `l₀` has done by the time it has seen the documents `seen`,
each with a field and a term it holds there: it marked the documents whose rule fires for a term
they were seen with, moved exactly those to the positive group of their rule, and left the others
where they were. -/
structure Scanned (table : RuleTable Rule) (l₀ : Lookup) (seen : Field → Term → DocId → Prop)
    (acc : Lookup × DocBits) : Prop where
  size_eq : acc.1.size = l₀.size
  marked_iff : ∀ d : DocId, d.toNat < l₀.size → (acc.2.get d.toNat = true ↔
    ∃ f t r, seen f t d ∧ table.get? (l₀.get d) = some r ∧ r.condition.fires f t = true)
  get_eq : ∀ d : DocId, d.toNat < l₀.size → acc.1.get d =
    if acc.2.get d.toNat then ((table.get? (l₀.get d)).map (·.positive)).getD noGroup else l₀.get d

section Scan

variable {table : RuleTable Rule} {l₀ : Lookup} {P Q : Field → Term → DocId → Prop}
  {acc : Lookup × DocBits}

theorem Scanned.congr (h : Scanned table l₀ P acc) (hPQ : ∀ f t d, P f t d ↔ Q f t d) :
    Scanned table l₀ Q acc where
  size_eq := h.size_eq
  marked_iff d hd := by simpa only [hPQ] using h.marked_iff d hd
  get_eq := h.get_eq

theorem scanned_start (table : RuleTable Rule) (l₀ : Lookup) :
    Scanned table l₀ (fun _ _ _ => False) (l₀, DocBits.empty l₀.size) where
  size_eq := rfl
  marked_iff d _ := by simp [DocBits.get, DocBits.empty]
  get_eq d _ := by simp [DocBits.get, DocBits.empty]

/-- A fold whose every step sees some documents, and does what seeing them asks, has seen the
documents of all its steps. -/
theorem Scanned.foldl {α : Type} {F : Lookup × DocBits → α → Lookup × DocBits}
    (seenBy : α → Field → Term → DocId → Prop)
    (hF : ∀ P acc x, Scanned table l₀ P acc →
      Scanned table l₀ (fun f t d => P f t d ∨ seenBy x f t d) (F acc x)) :
    ∀ (xs : List α) (P : Field → Term → DocId → Prop) (acc : Lookup × DocBits),
      Scanned table l₀ P acc →
      Scanned table l₀ (fun f t d => P f t d ∨ ∃ x ∈ xs, seenBy x f t d) (xs.foldl F acc)
  | [], P, acc, h => h.congr (by simp)
  | x :: xs, P, acc, h => by
    refine (Scanned.foldl seenBy hF xs _ _ (hF P acc x h)).congr ?_
    intro f t d
    simp only [List.mem_cons, exists_eq_or_imp]
    tauto

/-- Seeing a document changes nothing when it is marked already, or when no rule of its group
fires for the term. -/
theorem Scanned.see_of_unmoved (h : Scanned table l₀ P acc) {f : Field} {t : Term} {d : DocId}
    (hd : d.toNat < l₀.size → acc.2.get d.toNat = true ∨
      ∀ r, table.get? (l₀.get d) = some r → r.condition.fires f t = false) :
    Scanned table l₀ (fun f' t' d' => P f' t' d' ∨ (f' = f ∧ t' = t ∧ d' = d)) acc where
  size_eq := h.size_eq
  get_eq := h.get_eq
  marked_iff d' hd' := by
    rw [h.marked_iff d' hd']
    by_cases hdd : d' = d
    · subst hdd
      rcases hd hd' with hm | hno
      · -- already marked: a term it was seen with fires already
        obtain ⟨f', t', r, hs, hr, hfire⟩ := (h.marked_iff d' hd').mp hm
        exact iff_of_true ⟨f', t', r, hs, hr, hfire⟩ ⟨f', t', r, .inl hs, hr, hfire⟩
      · constructor
        · rintro ⟨f', t', r, hs, hr, hfire⟩
          exact ⟨f', t', r, .inl hs, hr, hfire⟩
        · rintro ⟨f', t', r, hs | ⟨rfl, rfl, -⟩, hr, hfire⟩
          · exact ⟨f', t', r, hs, hr, hfire⟩
          · rw [hno r hr] at hfire
            cases hfire
    · simp [hdd]

/-- Seeing a document whose rule fires for the term moves it to the rule's positive group and
marks it. -/
theorem Scanned.see_of_fires (h : Scanned table l₀ P (l, m)) {f : Field} {t : Term} {d : DocId}
    (hd : d.toNat < l₀.size) (hm : m.get d.toNat = false) {r : Rule}
    (hr : table.get? (l₀.get d) = some r) (hfire : r.condition.fires f t = true) :
    Scanned table l₀ (fun f' t' d' => P f' t' d' ∨ (f' = f ∧ t' = t ∧ d' = d))
      (l.set d r.positive, m.set d.toNat) where
  size_eq := by simpa using h.size_eq
  marked_iff d' hd' := by
    by_cases hdd : d' = d
    · subst hdd
      rw [DocBits.get_set_self]
      exact iff_of_true rfl ⟨f, t, r, .inr ⟨rfl, rfl, rfl⟩, hr, hfire⟩
    · have hne : d'.toNat ≠ d.toNat := fun e => hdd (UInt32.toNat_inj.mp e)
      rw [DocBits.get_set_of_ne _ hne, h.marked_iff d' hd']
      simp [hdd]
  get_eq d' hd' := by
    by_cases hdd : d' = d
    · subst hdd
      rw [get_set_self (by simpa [h.size_eq] using hd), DocBits.get_set_self, hr]
      rfl
    · have hne : d'.toNat ≠ d.toNat := fun e => hdd (UInt32.toNat_inj.mp e)
      rw [get_set_of_ne hdd, DocBits.get_set_of_ne _ hne]
      exact h.get_eq d' hd'

/-- Applying the rules to a batch of documents holding a term sees them with the term. -/
theorem Scanned.applyConditions (h : Scanned table l₀ P (l, m)) (h0 : table.get? noGroup = none)
    (docs : List DocId) (f : Field) (t : Term) :
    Scanned table l₀ (fun f' t' d => P f' t' d ∨ (f' = f ∧ t' = t ∧ d ∈ docs))
      (l.applyConditions docs m table f t) := by
  unfold Lookup.applyConditions
  refine (Scanned.foldl (fun d f' t' d' => f' = f ∧ t' = t ∧ d' = d) ?_ docs P (l, m) h).congr ?_
  · rintro P ⟨l, m⟩ d h
    -- an unmarked document of the range stands in its old group, so its old rule decides
    have hold : d.toNat < l₀.size → m.get d.toNat = false → l.get d = l₀.get d := fun hd hm => by
      simpa [hm] using h.get_eq d hd
    dsimp only
    split
    · exact h.see_of_unmoved fun _ => .inl ‹_›
    · rename_i hm
      simp only [Bool.not_eq_true] at hm
      split
      · rename_i hnone
        refine h.see_of_unmoved fun hd => .inr fun r hr => ?_
        rw [hold hd hm, hr] at hnone
        cases hnone
      · rename_i r hr
        by_cases hd : d.toNat < l₀.size
        · rw [hold hd hm] at hr
          split
          · exact h.see_of_fires hd hm hr ‹_›
          · rename_i hno
            exact h.see_of_unmoved fun _ => .inr fun r' hr' => by
              rw [hr] at hr'
              cases hr'
              simpa using hno
        · -- a document past the range stands in group 0, which has no rule
          rw [get_of_size_le (by rw [h.size_eq]; omega), h0] at hr
          cases hr
  · intro f' t' d
    constructor
    · rintro (hp | ⟨x, hx, rfl, rfl, rfl⟩)
      · exact .inl hp
      · exact .inr ⟨rfl, rfl, hx⟩
    · rintro (hp | ⟨rfl, rfl, hx⟩)
      · exact .inl hp
      · exact .inr ⟨d, hx, rfl, rfl, rfl⟩

end Scan

/-- The lookup a rule regroup leaves, by definition: every document sent by `ruleDestination`,
and the bound recalculated. -/
def ruleRegrouped (l : Lookup) (s : Shard) (rules : List Rule) : Lookup :=
  ofGroups (l.groups.mapIdx fun i g => ruleDestination rules l.numGroups s i.toUInt32 g)

section Regroup

variable {l : Lookup} {s : Shard} {batch : Nat} {rules : List Rule} {table : RuleTable Rule}

/-- Scanning the fields of a table, in batches of any size, sees every document with every term
it holds in those fields. -/
theorem scanned_fields {G : Field → Lookup × DocBits → Term × List DocId → Lookup × DocBits}
    (hG : ∀ f acc p, G f acc p = acc.1.applyConditions p.2 acc.2 table f p.1)
    (h0 : table.get? noGroup = none) (s : Shard) (batch : Nat) (l₀ : Lookup) :
    Scanned table l₀ (fun f t d => f ∈ table.fields ∧ ∃ docs, (t, docs) ∈ s.lists f ∧ d ∈ docs)
      (table.fields.foldl (fun acc f => (s.visits f batch).foldl (G f) acc)
        (l₀, DocBits.empty l₀.size)) := by
  -- one fold over the fields, each a fold over the visits of the field
  refine (Scanned.foldl (fun f₀ f t d => ∃ p ∈ s.visits f₀ batch, f = f₀ ∧ t = p.1 ∧ d ∈ p.2)
    ?_ table.fields _ _ (scanned_start table l₀)).congr ?_
  · intro P acc f₀ h
    refine Scanned.foldl (fun (p : Term × List DocId) f t d => f = f₀ ∧ t = p.1 ∧ d ∈ p.2) ?_ _ P
      acc h
    rintro P' ⟨l', m'⟩ ⟨t, docs⟩ h'
    rw [hG]
    exact h'.applyConditions h0 docs f₀ t
  · intro f t d
    rw [← @Shard.mem_visits s f batch t d]
    constructor
    · rintro (h | ⟨f₀, hf, ⟨t', ch⟩, hv, rfl, rfl, hd⟩)
      · exact h.elim
      · exact ⟨hf, ch, hv, hd⟩
    · rintro ⟨hf, ch, hv, hd⟩
      exact .inr ⟨f, hf, (t, ch), hv, rfl, rfl, hd⟩

/-- After that scan of a table built from the rules, a document is marked exactly when it meets
the condition of its group's rule. -/
theorem Scanned.marked_iff_meets {acc : Lookup × DocBits}
    (h : Scanned table l (fun f t d => f ∈ table.fields ∧ ∃ docs, (t, docs) ∈ s.lists f ∧ d ∈ docs)
      acc)
    (hidx : RuleTable.Indexes l.numGroups rules table) (d : DocId) (hd : d.toNat < l.size) :
    acc.2.get d.toNat = true ↔ ∃ r, table.get? (l.get d) = some r ∧ s.Meets r.condition d := by
  rw [h.marked_iff d hd]
  constructor
  · rintro ⟨f, t, r, ⟨-, docs, hmem, hdoc⟩, hr, hfire⟩
    obtain ⟨rfl, hadm⟩ := (Condition.fires_iff ..).mp hfire
    exact ⟨r, hr, (t, docs), hmem, hdoc, hadm⟩
  · rintro ⟨r, hr, ⟨t, docs⟩, hmem, hdoc, hadm⟩
    exact ⟨r.condition.field, t, r, ⟨hidx.fields _ r hr, docs, hmem, hdoc⟩, hr,
      (Condition.fires_iff ..).mpr ⟨rfl, hadm⟩⟩

section Sweep

variable {marked : DocBits} {F : Lookup → Nat → Lookup}

/-- The sweep visits the ids in order and sends each unmarked document to the negative group of
its group's rule, or to 0 when its group has none. A document is only ever written at its own
id, so what the sweep reads there is what the scan left. -/
theorem sweep_get
    (hF : ∀ l i, F l i = if marked.get i then l else
      l.set i.toUInt32 (((table.get? (l.get i.toUInt32)).map (·.negative)).getD noGroup))
    {l : Lookup} (hsize : l.size ≤ 2 ^ 32) :
    ∀ k ≤ l.size, ((List.range k).foldl F l).size = l.size ∧
      ∀ d : DocId, d.toNat < l.size → ((List.range k).foldl F l).get d =
        if d.toNat < k ∧ marked.get d.toNat = false then
          ((table.get? (l.get d)).map (·.negative)).getD noGroup
        else l.get d
  | 0, _ => ⟨rfl, fun d _ => by simp⟩
  | k + 1, hk => by
    obtain ⟨hsz, hget⟩ := sweep_get hF hsize k (by omega)
    have hkd : k.toUInt32.toNat = k := by simp; omega
    have hlt : ∀ d : DocId, d.toNat ≠ k → (d.toNat < k + 1 ↔ d.toNat < k) := by omega
    rw [List.range_succ, List.foldl_append, List.foldl_cons, List.foldl_nil, hF]
    by_cases hm : marked.get k = true
    · rw [if_pos hm]
      refine ⟨hsz, fun d hd => ?_⟩
      rw [hget d hd]
      by_cases hdk : d.toNat = k
      · simp [hdk, hm]
      · simp only [hlt d hdk]
    · rw [if_neg hm]
      refine ⟨by rw [size_set, hsz], fun d hd => ?_⟩
      by_cases hdk : d = k.toUInt32
      · subst hdk
        rw [get_set_self (by rw [hsz]; omega), hget _ (by omega)]
        simp [hkd, hm]
      · have hne : d.toNat ≠ k := fun e => hdk (UInt32.toNat_inj.mp (by rw [e, hkd]))
        rw [get_set_of_ne hdk, hget d hd]
        simp only [hlt d hne]

/-- After the scan, the sweep sends every document where the reference sends it, and the bound
is recalculated from the groups alone. -/
theorem sweep_eq_ruleRegrouped
    (hF : ∀ l i, F l i = if marked.get i then l else
      l.set i.toUInt32 (((table.get? (l.get i.toUInt32)).map (·.negative)).getD noGroup))
    (hsize : l.size ≤ 2 ^ 32) (hidx : RuleTable.Indexes l.numGroups rules table) {l₁ : Lookup}
    (hsc : Scanned table l
      (fun f t d => f ∈ table.fields ∧ ∃ docs, (t, docs) ∈ s.lists f ∧ d ∈ docs) (l₁, marked)) :
    ((List.range l₁.size).foldl F l₁).recalculate = l.ruleRegrouped s rules := by
  have hsz₁ : l₁.size = l.size := hsc.size_eq
  obtain ⟨hsz, hget⟩ := sweep_get hF (l := l₁) (by omega) l₁.size le_rfl
  -- each document lands where the reference sends it
  have hdoc : ∀ d : DocId, d.toNat < l.size →
      ((List.range l₁.size).foldl F l₁).get d = ruleDestination rules l.numGroups s d (l.get d) := by
    intro d hd
    have hm := hsc.marked_iff_meets hidx d hd
    rw [hget d (by omega), hsc.get_eq d hd, ruleDestination, ← hidx.get?]
    cases hr : table.get? (l.get d) with
    | none =>
      have hfalse : marked.get d.toNat = false := by simpa [hr] using hm
      simp [hfalse, hsz₁, hd, hr]
    | some r =>
      by_cases hmeet : s.Meets r.condition d
      · have htrue : marked.get d.toNat = true := hm.mpr ⟨r, hr, hmeet⟩
        simp [htrue, hmeet]
      · have hfalse : marked.get d.toNat = false := by simpa [hr, hmeet] using hm
        simp [hfalse, hmeet, hsz₁, hd, hr]
  have hgroups : ((List.range l₁.size).foldl F l₁).groups =
      l.groups.mapIdx fun i g => ruleDestination rules l.numGroups s i.toUInt32 g :=
    groups_eq_mapIdx (D := ruleDestination rules l.numGroups s) hsize (hsz.trans hsz₁) hdoc
  simp only [ruleRegrouped, ofGroups, recalculate, hgroups]

end Sweep

/-- Where valid rules send a document lies below `maxNumGroups`. -/
theorem ruleDestination_lt (hv : ∀ r ∈ rules, r.Valid) (n : UInt32) (s : Shard) (d : DocId)
    (g : GroupId) : ruleDestination rules n s d g < maxNumGroups := by
  unfold ruleDestination
  split
  · decide
  · rename_i r hr
    have hmem : r ∈ rules := by
      unfold ruleFor at hr
      split at hr
      · cases hr
      · exact List.mem_of_find?_eq_some hr
    obtain ⟨-, hneg, hpos⟩ := hv r hmem
    split
    · exact hpos
    · exact hneg

/-- The reference of valid rules has its bound one past its largest group. -/
theorem ruleRegrouped_exact (hv : ∀ r ∈ rules, r.Valid) : (l.ruleRegrouped s rules).Exact := by
  unfold ruleRegrouped ofGroups
  apply recalculate_exact
  intro g hg
  obtain ⟨i, hi, rfl⟩ := Array.mem_mapIdx.mp hg
  exact ne_lastGroup_of_lt (ruleDestination_lt hv _ s _ _)

/-- With a table built from the rules, the regroup computes the reference. -/
theorem regroup_of_indexes (hsize : l.size ≤ 2 ^ 32)
    (hbuild : RuleTable.build rules l.numGroups = .ok table)
    (hidx : RuleTable.Indexes l.numGroups rules table) :
    l.regroup s batch rules = .ok (l.ruleRegrouped s rules) := by
  have h0 : table.get? noGroup = none := by rw [hidx.get?]; simp [ruleFor]
  unfold regroup
  rw [hbuild]
  dsimp only [bind, Except.bind]
  generalize hacc : List.foldl _ (l, DocBits.empty l.size) table.fields = acc
  have hsc : Scanned table l
      (fun f t d => f ∈ table.fields ∧ ∃ docs, (t, docs) ∈ s.lists f ∧ d ∈ docs) acc := by
    rw [← hacc]
    refine scanned_fields ?_ h0 s batch l
    intro f acc p
    rfl
  obtain ⟨l₁, marked⟩ := acc
  refine congrArg Except.ok (sweep_eq_ruleRegrouped ?_ hsize hidx hsc)
  intro l i
  rfl

/-- A rule regroup sends every document by the first rule for its group, to the positive group when
it holds a term the rule's condition admits, to the negative group otherwise, and to 0 for group 0
or no rule, whatever the batch size. A rule comparing against a term of another type, or sending
past `maxNumGroups`, fails as an invalid argument. -/
theorem regroup_eq_ruleRegrouped (l : Lookup) (s : Shard) (batch : Nat) (rules : List Rule)
    (hsize : l.size ≤ 2 ^ 32) :
    ((∀ r ∈ rules, r.Valid) →
      l.regroup s batch rules = .ok (l.ruleRegrouped s rules) ∧ (l.ruleRegrouped s rules).Exact) ∧
    ((∃ r ∈ rules, ¬ r.Valid) →
      ∃ fault, l.regroup s batch rules = .error (.invalidArgument fault)) := by
  refine ⟨fun hv => ?_, fun hbad => ?_⟩
  · obtain ⟨table, hbuild, hidx⟩ := RuleTable.indexes_build hv l.numGroups
    exact ⟨regroup_of_indexes hsize hbuild hidx, ruleRegrouped_exact hv⟩
  · obtain ⟨fault, hbuild⟩ := RuleTable.build_of_not_valid hbad l.numGroups
    exact ⟨fault, by rw [regroup, hbuild]; rfl⟩

theorem regroup_eq_ruleRegrouped_two_rules :
    let l : Lookup := ⟨#[1, 2, 1, 0], 3⟩
    let s : Shard := { numDocs := 4, intFields := [("x", [(.int 5, [0, 3]), (.int 7, [2])])] }
    let rules : List Rule := [⟨1, .intLe "x" 5, 4, 6⟩, ⟨2, .intEq "x" 7, 8, 9⟩]
    l.size ≤ 2 ^ 32 ∧ (∀ r ∈ rules, r.Valid) ∧
      l.regroup s 1 rules = .ok (l.ruleRegrouped s rules) := by
  intro l s rules
  have hsize : l.size ≤ 2 ^ 32 := by decide
  have hv : ∀ r ∈ rules, r.Valid := by decide
  exact ⟨hsize, hv, ((regroup_eq_ruleRegrouped l s 1 rules hsize).1 hv).1⟩

/- Document 0 holds 5 and meets `x ≤ 5`; document 2 holds only 7 and does not; document 1 holds
nothing and misses `x = 7`; document 3 is in group 0. -/
example : (Lookup.ruleRegrouped ⟨#[1, 2, 1, 0], 3⟩
    { numDocs := 4, intFields := [("x", [(.int 5, [0, 3]), (.int 7, [2])])] }
    [⟨1, .intLe "x" 5, 4, 6⟩, ⟨2, .intEq "x" 7, 8, 9⟩]) = ⟨#[6, 8, 4, 0], 9⟩ := by
  decide

end Regroup

end Lookup

end GroupStats
