import GroupStats.Proofs.Group.RuleRegroup

/-!
# Rule tables of any kind of rule

A rule table indexes rules by the group they target, for any kind of rule that names its target,
its conditions and its destinations (`Targeted`). Built from rules whose conditions compare
against terms of their fields' types and whose destinations lie below `maxNumGroups`, the table
gives each group the first rule targeting it, when the group is not 0 and lies below the bound the
table was built for (`targetRule`), and it scans the field of every condition of every rule it
keeps.
-/

namespace GroupStats

variable {ρ : Type} [Targeted ρ]

/-- The rule a regroup applies to the documents of group `g` of a lookup with bound `bound`: the
first rule given for `g`, when `g` is not 0 and lies below the bound. -/
def targetRule (rules : List ρ) (bound : UInt32) (g : GroupId) : Option ρ :=
  if g = noGroup ∨ bound ≤ g then none else rules.find? (Targeted.target · == g)

namespace Targeted

/-- A rule is valid when each of its conditions compares against a term of its field's type and
each of its destinations lies below `maxNumGroups`. -/
def Valid (r : ρ) : Prop :=
  (∀ c ∈ conditions r, c.term.fieldType = c.field.type) ∧ ∀ g ∈ destinations r, g < maxNumGroups

instance (r : ρ) : Decidable (Valid r) :=
  inferInstanceAs (Decidable ((∀ c ∈ conditions r, c.term.fieldType = c.field.type) ∧
    ∀ g ∈ destinations r, g < maxNumGroups))

end Targeted

theorem targetRule_zero (rules : List ρ) (bound : UInt32) : targetRule rules bound noGroup = none := by
  simp [targetRule]

theorem mem_of_targetRule {rules : List ρ} {bound : UInt32} {g : GroupId} {r : ρ}
    (h : targetRule rules bound g = some r) : r ∈ rules := by
  unfold targetRule at h
  split at h
  · cases h
  · exact List.mem_of_find?_eq_some h

/-- Appending a rule changes the rule of no other group. -/
theorem targetRule_append_of_ne {done : List ρ} {r : ρ} {n : UInt32} {g : GroupId}
    (hrg : Targeted.target r ≠ g) : targetRule (done ++ [r]) n g = targetRule done n g := by
  unfold targetRule
  split_ifs
  · rfl
  · simp [List.find?_append, hrg]

/-- Appending a rule for a group that has one already keeps the first. -/
theorem targetRule_append_of_isSome {done : List ρ} {r : ρ} {n : UInt32} {g : GroupId}
    (h : (done.find? (Targeted.target · == g)).isSome) :
    targetRule (done ++ [r]) n g = targetRule done n g := by
  unfold targetRule
  split_ifs
  · rfl
  · obtain ⟨r', hr'⟩ := Option.isSome_iff_exists.mp h
    simp [List.find?_append, hr']

namespace RuleTable

/-- A table built from the rules `done` for a lookup of bound `n`: the rule it gives a group is
the rule a regroup applies to it, and it scans the field of every condition of every rule it
gives. -/
structure Built (n : UInt32) (done : List ρ) (t : RuleTable ρ) : Prop where
  get? : ∀ g, t.get? g = targetRule done n g
  fields : ∀ g r, t.get? g = some r → ∀ c ∈ Targeted.conditions r, c.field ∈ t.fields

theorem built_empty (n : UInt32) : Built n ([] : List ρ) {} where
  get? g := by simp [get?, targetRule]
  fields g r h := by simp [get?] at h

/-- Checking the conditions of a rule passes when each compares against a term of its field's
type. -/
theorem forIn_validate {cs : List Condition} (h : ∀ c ∈ cs, c.term.fieldType = c.field.type) :
    (forIn cs PUnit.unit fun c _ => do
        c.validate
        pure (ForInStep.yield PUnit.unit) : Except Error PUnit) = .ok PUnit.unit := by
  induction cs with
  | nil => rfl
  | cons c cs ih =>
    have hc : c.validate = .ok () := by
      simp [Condition.validate, h c (List.mem_cons_self ..)]
    rw [List.forIn_cons]
    simp only [hc, bind, Except.bind, pure, Except.pure]
    exact ih fun c' hc' => h c' (List.mem_cons_of_mem _ hc')

/-- The fields a table scans after adding conditions: those it scanned, and the field of each
condition. -/
theorem mem_foldl_fields {f : Field} :
    ∀ (cs : List Condition) (fs : List Field),
      f ∈ cs.foldl (fun fs c => if fs.contains c.field then fs else fs ++ [c.field]) fs ↔
        f ∈ fs ∨ ∃ c ∈ cs, c.field = f
  | [], fs => by simp
  | c :: cs, fs => by
    rw [List.foldl_cons, mem_foldl_fields cs]
    split
    · rename_i hc
      have hc : c.field ∈ fs := by simpa using hc
      constructor
      · rintro (h | ⟨c', hc', rfl⟩)
        · exact .inl h
        · exact .inr ⟨c', List.mem_cons_of_mem _ hc', rfl⟩
      · rintro (h | ⟨c', hc', rfl⟩)
        · exact .inl h
        · rcases List.mem_cons.mp hc' with rfl | hc'
          · exact .inl hc
          · exact .inr ⟨c', hc', rfl⟩
    · simp only [List.mem_append, List.mem_cons, List.not_mem_nil, or_false, exists_eq_or_imp]
      constructor
      · rintro ((h | rfl) | h)
        · exact .inl h
        · exact .inr (.inl rfl)
        · exact .inr (.inr h)
      · rintro (h | rfl | h)
        · exact .inl (.inl h)
        · exact .inl (.inr rfl)
        · exact .inr h

theorem add_eq_ok {n : UInt32} {t : RuleTable ρ} {r : ρ} (hr : Targeted.Valid r) :
    add n t r = .ok (if Targeted.target r = noGroup ∨ Targeted.target r ≥ n then t
      else if t.entries.any (·.1 == Targeted.target r) then t
      else { entries := insertEntry (Targeted.target r, r) t.entries,
             fields := (Targeted.conditions r).foldl
               (fun fs c => if fs.contains c.field then fs else fs ++ [c.field]) t.fields }) := by
  have hcheck : checkGroups (Targeted.destinations r) = .ok () := checkGroups_eq_ok.mpr hr.2
  unfold add
  rw [forIn_validate hr.1]
  simp only [bind, Except.bind, hcheck, pure, Except.pure]
  split_ifs <;> rfl

omit [Targeted ρ] in
theorem get?_eq_none_iff_any {t : RuleTable ρ} {g : GroupId} :
    t.get? g = none ↔ (t.entries.any (·.1 == g)) = false := by
  simp [get?, List.find?_eq_none]

/-- Adding a valid rule to a table built from `done` gives the table built from `done` and the
rule: a rule for a group that has one already, or for group 0 or a group past the bound, is
dropped, and a rule for a new group is found under it and adds the fields its conditions read. -/
theorem Built.add {n : UInt32} {done : List ρ} {t : RuleTable ρ} {r : ρ} (h : Built n done t)
    (hr : Targeted.Valid r) : ∃ t', add n t r = .ok t' ∧ Built n (done ++ [r]) t' := by
  rw [add_eq_ok hr]
  refine ⟨_, rfl, ?_⟩
  by_cases hout : Targeted.target r = noGroup ∨ Targeted.target r ≥ n
  · -- the rule can reach no document: nothing changes
    rw [if_pos hout]
    refine ⟨fun g => ?_, h.fields⟩
    rw [h.get? g]
    by_cases hrg : Targeted.target r = g
    · subst hrg
      have hout' : Targeted.target r = noGroup ∨ n ≤ Targeted.target r := hout
      simp [targetRule, hout']
    · exact (targetRule_append_of_ne hrg).symm
  · rw [if_neg hout]
    have hout' : ¬ (Targeted.target r = noGroup ∨ n ≤ Targeted.target r) := hout
    by_cases hany : (t.entries.any (·.1 == Targeted.target r)) = true
    · -- the group has a rule already, which stays first
      rw [if_pos hany]
      have hfirst : (done.find? (Targeted.target · == Targeted.target r)).isSome := by
        have hsome := (not_congr get?_eq_none_iff_any).mpr (by simpa using hany)
        rw [h.get? _, targetRule, if_neg hout'] at hsome
        exact Option.isSome_iff_ne_none.mpr hsome
      refine ⟨fun g => ?_, h.fields⟩
      rw [h.get? g]
      by_cases hrg : Targeted.target r = g
      · subst hrg
        exact (targetRule_append_of_isSome hfirst).symm
      · exact (targetRule_append_of_ne hrg).symm
    · -- a rule for a new group: found under it, with the fields of its conditions
      rw [if_neg hany]
      have hnone : t.get? (Targeted.target r) = none :=
        get?_eq_none_iff_any.mpr (Bool.eq_false_iff.mpr hany)
      have hfree : ∀ e ∈ t.entries, e.1 ≠ Targeted.target r := by
        intro e he hre
        exact hany (List.any_eq_true.mpr ⟨e, he, by simp [hre]⟩)
      have hget : ∀ (fs : List Field) g,
          RuleTable.get? ⟨insertEntry (Targeted.target r, r) t.entries, fs⟩ g =
            if Targeted.target r = g then some r else t.get? g := by
        intro fs g
        simp only [RuleTable.get?, find?_insertEntry (x := (Targeted.target r, r)) hfree g]
        split <;> rfl
      refine ⟨fun g => ?_, fun g r' hr' c hc => ?_⟩
      · rw [hget _ g]
        by_cases hrg : Targeted.target r = g
        · subst hrg
          have hdone : done.find? (Targeted.target · == Targeted.target r) = none := by
            rw [h.get? _, targetRule, if_neg hout'] at hnone
            exact hnone
          simp [targetRule, hout', List.find?_append, hdone]
        · rw [if_neg hrg, h.get? g]
          exact (targetRule_append_of_ne hrg).symm
      · rw [hget _ g] at hr'
        rw [mem_foldl_fields]
        split at hr'
        · cases hr'
          exact .inr ⟨c, hc, rfl⟩
        · exact .inl (h.fields g r' hr' c hc)

/-- Indexing valid rules goes through, and gives the table of those rules. -/
theorem built_build {rules : List ρ} (hv : ∀ r ∈ rules, Targeted.Valid r) (n : UInt32) :
    ∃ t, build rules n = .ok t ∧ Built n rules t := by
  suffices ∀ (rs done : List ρ) (acc : RuleTable ρ), (∀ r ∈ rs, Targeted.Valid r) →
      Built n done acc → ∃ t, rs.foldlM (add n) acc = .ok t ∧ Built n (done ++ rs) t from
    this rules [] {} hv (built_empty n)
  intro rs
  induction rs with
  | nil =>
    intro done acc _ h
    exact ⟨acc, rfl, by simpa using h⟩
  | cons r rs ih =>
    intro done acc hv h
    obtain ⟨t', hadd, ht'⟩ := h.add (hv r (List.mem_cons_self ..))
    obtain ⟨t, hrun, ht⟩ :=
      ih (done ++ [r]) t' (fun r' hr' => hv r' (List.mem_cons_of_mem _ hr')) ht'
    refine ⟨t, ?_, by simpa using ht⟩
    rw [List.foldlM_cons, hadd]
    exact hrun

end RuleTable

end GroupStats
