import GroupStats.Proofs.Group.Moves
import GroupStats.Session.Shard

/-!
# Group 0 and the target of a split

Group 0 holds the documents that take part in nothing, and a regroup keeps them there: rule
tables never keep a rule for group 0, renames and stat walks skip it, and every other document
moves only out of a group that a rule or a split names. A split of one target group leaves the
documents of every other group where they are.

The splits that find their target by comparing each document's group with it (by a set of
terms, at random, by thresholds, and the bitset split under the first two) are the exception:
given group 0 as their target they split group 0 like any other group. The stat split skips
group 0 before it looks at its target, so it keeps group 0 whatever the target. The stat walks
write one document's move over another's past `2 ^ 32` documents, so the frame is stated for
assignments whose documents all have an id.
-/

namespace GroupStats

/-- A move that keeps group 0 and, for a split of `target`, every group other than the
target. -/
def Respects (target : Option GroupId) (g h : GroupId) : Prop :=
  (g = noGroup → h = noGroup) ∧ ∀ t, target = some t → g ≠ t → h = g

instance (target : Option GroupId) : Std.Refl (Respects target) :=
  ⟨fun _ => ⟨id, fun _ _ _ => rfl⟩⟩

instance (target : Option GroupId) : IsTrans GroupId (Respects target) :=
  ⟨fun _ _ _ hab hbc => ⟨fun h => hbc.1 (hab.1 h), fun t ht hat => by
    rw [hbc.2 t ht (by rwa [hab.2 t ht hat]), hab.2 t ht hat]⟩⟩

namespace Regroup

/-- The group a split of one target group splits. -/
def target? : Regroup → Option GroupId
  | .termOr _ _ t _ _ | .random _ _ _ t _ _ | .randomMulti _ _ t _ _
  | .targetedFilter _ _ _ t _ _ => some t
  | _ => none

/-- The target of a split that compares every document's group with it, group 0 included. -/
def comparedTarget? : Regroup → Option GroupId
  | .termOr _ _ t _ _ | .random _ _ _ t _ _ | .randomMulti _ _ t _ _ => some t
  | _ => none

end Regroup

/-- Any group may receive the documents of a split's target other than group 0. -/
theorem respects_target {t : GroupId} (ht : t ≠ noGroup) (h : GroupId) : Respects (some t) t h :=
  ⟨fun h0 => absurd h0 ht, fun _ hs hne => absurd (Option.some.inj hs) hne⟩

/-- Without a target, any group may receive the documents of a group other than 0. -/
theorem respects_none {g : GroupId} (hg : g ≠ noGroup) (h : GroupId) : Respects none g h :=
  ⟨fun h0 => absurd h0 hg, fun _ hs => by cases hs⟩

namespace ShardSession

variable {s : ShardSession} {r : Regroup} {l' : Lookup}

/-- A regroup other than a reset keeps group 0 and, for a split of one target, every other
group, unless it compares group 0 with its target. -/
theorem regrouped_respects (hsmall : s.lookup.size ≤ 2 ^ 32) (hr : r ≠ .reset)
    (ht : r.comparedTarget? ≠ some noGroup) (h : s.regrouped r = .ok l') :
    Lookup.Moves (Respects r.target?) s.lookup l' := by
  -- each regroup ends by recalculating the bound, which moves nothing
  suffices hm : ∃ l'', l' = l''.recalculate ∧ Lookup.Moves (Respects r.target?) s.lookup l'' by
    obtain ⟨l'', rfl, hm⟩ := hm
    exact hm.trans Lookup.moves_recalculate
  cases r with
  | rules rs => exact Lookup.regroup_moves (fun g h hg _ => respects_none hg h) h
  | multisplit rs strict => exact Lookup.multisplit_moves (fun g h hg _ => respects_none hg h) h
  | termOr f ts t n p =>
    have ht0 : t ≠ noGroup := fun h0 => ht (by rw [h0]; rfl)
    exact Lookup.termOr_moves (fun h _ => respects_target ht0 h) h
  | random f salt x t n p =>
    have ht0 : t ≠ noGroup := fun h0 => ht (by rw [h0]; rfl)
    exact Lookup.random_moves (fun h _ => respects_target ht0 h) h
  | metric i b =>
    obtain ⟨c, -, h⟩ := bind_eq_ok.mp h
    exact Lookup.metric_moves hsmall (fun g _ hg => respects_none hg _) h
  | metricFilter i lo hi neg =>
    obtain ⟨c, -, h⟩ := bind_eq_ok.mp h
    exact Lookup.metricFilter_moves hsmall (fun g hg => respects_none hg _) h
  | randomMulti f salt t th rs =>
    have ht0 : t ≠ noGroup := fun h0 => ht (by rw [h0]; rfl)
    exact Lookup.randomMulti_moves (fun h _ => respects_target ht0 h) h
  | targetedFilter i lo hi t n p =>
    obtain ⟨c, -, h⟩ := bind_eq_ok.mp h
    exact Lookup.targetedMetricFilter_moves hsmall (fun ht0 h _ => respects_target ht0 h) h
  | remap src dst fl => exact Lookup.remap_moves (fun g h hg _ => respects_none hg h) h
  | reset => exact absurd rfl hr

end ShardSession

/-- No regroup but a reset takes a document out of group 0, and a split of one target group
changes no document of another group, provided a split that compares group 0 with its target
is not given group 0 as its target. -/
theorem regroups_keep_group_zero (l : Lookup) (hsmall : l.size ≤ 2 ^ 32) (d : DocId) :
    (∀ (s : ShardSession) (r : Regroup) (l' : Lookup), s.lookup = l → r ≠ .reset →
      r.comparedTarget? ≠ some noGroup → s.regrouped r = .ok l' →
        (l.get d = noGroup → l'.get d = noGroup) ∧
          ∀ t, r.target? = some t → l.get d ≠ t → l'.get d = l.get d) ∧
    (∀ (bits : DocBits) (t n p : GroupId) (l' : Lookup), t ≠ noGroup →
      l.bitSetRegroup bits t n p = .ok l' →
        (l.get d = noGroup → l'.get d = noGroup) ∧ (l.get d ≠ t → l'.get d = l.get d)) := by
  constructor
  · rintro s r l' rfl hr ht h
    exact (ShardSession.regrouped_respects hsmall hr ht h).get d
  · intro bits t n p l' ht h
    have hd := (Lookup.bitSetRegroup_moves (fun h _ => respects_target ht h) h).get d
    exact ⟨hd.1, hd.2 t rfl⟩

/-- Over a document of group 0 and one of group 1, both holding the term 7: a split of target 1
by that term, and the same split given as the set of both documents, leave the first document
in group 0. -/
theorem splits_of_target_one_keep_group_zero :
    let s : ShardSession :=
      { shard := { numDocs := 2, intFields := [("f", [(.int 7, [0, 1])])] },
        lookup := ⟨#[0, 1], 2⟩, lookupClaim := 8, batch := 4096 }
    s.lookup.size ≤ 2 ^ 32 ∧ s.lookup.get 0 = noGroup ∧
      (∀ l', s.regrouped (.termOr (.int "f") [.int 7] 1 2 3) = .ok l' → l'.get 0 = noGroup) ∧
      ∀ l', s.lookup.bitSetRegroup ⟨2, [0, 1]⟩ 1 2 3 = .ok l' → l'.get 0 = noGroup := by
  intro s
  have hsmall : s.lookup.size ≤ 2 ^ 32 := by simp [s, Lookup.size]
  have hzero : s.lookup.get 0 = noGroup := rfl
  have hone : (1 : GroupId) ≠ noGroup := by simp [noGroup]
  refine ⟨hsmall, hzero, fun l' h => ?_, fun l' h => ?_⟩
  · exact ((regroups_keep_group_zero s.lookup hsmall 0).1 s _ l' rfl (by simp)
      (by simp [Regroup.comparedTarget?, noGroup]) h).1 hzero
  · exact ((regroups_keep_group_zero s.lookup hsmall 0).2 _ _ _ _ l' hone h).1 hzero

/-- A split by a set of terms given group 0 as its target moves a document out of group 0. -/
theorem termOr_target_zero_moves_excluded :
    (Lookup.create 1 0).get 0 = noGroup ∧
      ((Lookup.create 1 0).termOr { numDocs := 1, intFields := [("f", [(.int 7, [0])])] } 4096
        (Field.int "f") [.int 7] 0 1 2).toOption.map (Lookup.get · 0) = some 2 := by
  decide +kernel

end GroupStats
