import GroupStats.Proofs.Split.Fanout
import GroupStats.Proofs.Merge.Merger
import GroupStats.Proofs.Wire.RoundTrip

/-!
# Merging the parts of a split

Two laws of splitting streams into parts by the split index of their terms and merging the parts.
Splitting a stream whose terms and groups strictly ascend into `k ≥ 1` parts in memory and
merging the parts gives the stream back (`merge_split_eq`). Splitting several streams that visit
the same fields and merging their `i`-th parts gives the merge of the streams cut down to the
terms of split `i`, every field kept (`merge_parts_eq_keepTerms`).

Both rest on what a split leaves in memory (`Splitter.inMemory_eq`): readers of the encodings of
the parts, each standing at the start of its stream. The stream merge reads such inputs as the
merge of their streams (`Merger.collect_create`), and the laws of the merge finish the argument.
-/

namespace GroupStats

open Replay Wire

namespace Ftgs

/-- Cutting a stream to some terms keeps its fields. -/
@[simp] theorem map_field_keepTerms (keep : Term → Bool) (v : Ftgs) :
    (v.keepTerms keep).map (·.field) = v.map (·.field) := by
  simp [keepTerms, Function.comp_def]

end Ftgs

namespace Wire

/-- A reader accepts a stream cut to some of its terms when it accepts the stream. -/
theorem Fits.keepTerms {n : Nat} {G : UInt32} {v : Ftgs} (h : Fits n G v) (keep : Term → Bool) :
    Fits n G (v.keepTerms keep) := by
  intro f hf
  obtain ⟨f₀, hf₀, rfl⟩ := List.mem_map.mp hf
  exact ⟨(h f₀ hf₀).1, fun t ht => (h f₀ hf₀).2 t (List.mem_filter.mp ht).1⟩

namespace Reader

/-- A reader has no more groups left in its term than its budget. -/
theorem Shows.groups_le {c : Reader} {u : View} (h : c.Shows u) :
    u.groups.length ≤ Cursor.budget c := by
  obtain ⟨ty, hat, -⟩ := h.rest
  rcases hat with hrest | ⟨hnil, -⟩
  · have := hrest.length_le
    rw [cursor_budget]
    omega
  · simp [hnil]

/-- A reader of the encoding of a stream it accepts stands at the start of that stream, with a
budget above every level of it and a group bound above each of its groups. -/
theorem start_ofBytes {n : Nat} {G : UInt32} {v : Ftgs} (hv : Fits n G v) :
    (ofBytes (encode v) n G).Shows (View.start v) ∧
      v.Bounded (Cursor.budget (ofBytes (encode v) n G)) ∧
      (View.start v).Below (Cursor.numGroups (ofBytes (encode v) n G)) := by
  have hshows := tracks_start hv n 0
  rw [Tracks, view_start] at hshows
  refine ⟨hshows, (Ftgs.bounded_size v).mono ?_, by simp [View.start], by simp [View.start], ?_⟩
  · have := size_le_length_encode v
    simp only [cursor_budget, remaining, ofBytes, create]
    omega
  · exact hv.group_lt

/-- Readers of the encodings of streams they accept stand at the starts of those streams. -/
theorem forall₂_start_ofBytes {α : Type} (xs : List α) (part : α → Ftgs) {n : α → Nat}
    {G : α → UInt32} (h : ∀ x ∈ xs, Fits (n x) (G x) (part x)) :
    List.Forall₂ (fun c w => c.Shows (View.start w) ∧ w.Bounded (Cursor.budget c) ∧
        (View.start w).Below (Cursor.numGroups c))
      (xs.map fun x => ofBytes (encode (part x)) (n x) (G x)) (xs.map part) :=
  List.forall₂_map_left_iff.mpr (List.forall₂_map_right_iff.mpr
    (List.forall₂_same.mpr fun x hx => start_ofBytes (h x hx)))

end Reader

end Wire

namespace Replay

theorem mem_of_fieldBlock? {r : Replay} {f : FieldBlock} (h : r.fieldBlock? = some f) :
    f ∈ r.blocks := by
  unfold fieldBlock? at h
  split at h
  · cases h
  · exact List.mem_of_getElem? h

theorem mem_of_termBlock? {r : Replay} {t : TermBlock} (h : r.termBlock? = some t) :
    ∃ f ∈ r.blocks, t ∈ f.terms := by
  unfold termBlock? at h
  cases hf : r.fieldBlock? with
  | none => simp [hf] at h
  | some f =>
    simp only [hf, Option.bind_eq_bind, Option.bind_some] at h
    split at h
    · cases h
    · exact ⟨f, mem_of_fieldBlock? hf, List.mem_of_getElem? h⟩

/-- A replay has no more groups left in its term than its budget. -/
theorem groups_view_le (r : Replay) : r.view.groups.length ≤ Cursor.budget r := by
  cases ht : r.termBlock? with
  | none => simp [view, ht]
  | some t =>
    obtain ⟨f, hf, htf⟩ := mem_of_termBlock? ht
    have hle := ((Ftgs.bounded_size r.blocks).2 f hf).2 t htf
    simp only [view, ht, Option.map_some, Option.getD_some, List.length_drop, cursor_budget]
    omega

/-- A replay before its first field stands at the start of its stream. -/
theorem view_of_fieldPos {r : Replay} (h : r.fieldPos = 0) : r.view = View.start r.blocks := by
  simp [view, groupRow?, termBlock?, fieldBlock?, h, View.start]

/-- A replay before its first field, of a stream whose groups are below its bound, stands at
the start of its stream with a budget above every level of it. -/
theorem start_of_fieldPos {r : Replay} (h : r.fieldPos = 0)
    (hg : ∀ f ∈ r.blocks, ∀ t ∈ f.terms, ∀ g ∈ t.groups, g.group < r.numGroups) :
    r.view = View.start r.blocks ∧ r.blocks.Bounded (Cursor.budget r) ∧
      (View.start r.blocks).Below (Cursor.numGroups r) :=
  ⟨view_of_fieldPos h, Ftgs.bounded_size r.blocks, by simp [View.start], by simp [View.start], hg⟩

end Replay

namespace Splitter

/-- Split in memory into `k ≥ 1` parts and merged back, a stream whose terms and groups strictly
ascend, and which a reader with the stream's bounds accepts, is read back whole: every field in
order, those left without terms included, with the same terms, doc frequencies, groups and
stats. -/
theorem merge_split_eq (s : Splitter) {k : Nat} (hk : 0 < k) {v : Ftgs} {numStats : Nat}
    {atLeast : UInt32} (hv : Fits numStats (Replay.ofBlocks v numStats atLeast).numGroups v)
    (hs : v.Sorted) :
    ∃ readers m, s.inMemory (Replay.ofBlocks v numStats atLeast) k none = .ok readers ∧
      Merger.create readers = .ok m ∧ (Cursor.collect.apply m).1 = .ok v := by
  have hsplit := inMemory_eq viewSim_self s hk
    (show (Replay.ofBlocks v numStats atLeast).view = _ from rfl)
    (by simp [ofBlocks]) (Ftgs.bounded_size v)
    hv.stats_length
  obtain ⟨m, hm, hcollect⟩ := Merger.collect_create Reader.shows_viewSim
    (fun _ _ h => h.groups_le)
    (Reader.forall₂_start_ofBytes (List.range k) (fun i => v.keepTerms fun t => s.index t k = i)
      fun i _ => hv.keepTerms _)
    (by simp [Nat.pos_iff_ne_zero.mp hk])
    (fun c hc => by obtain ⟨i, -, rfl⟩ := List.mem_map.mp hc; rfl)
    (fun u hu w hw => by
      obtain ⟨i, -, rfl⟩ := List.mem_map.mp hu
      obtain ⟨j, -, rfl⟩ := List.mem_map.mp hw
      simp)
  refine ⟨_, m, hsplit, hm, ?_⟩
  rw [hcollect, Merge.fields_split (fun t => s.index t k) hk v
    (fun _ _ b _ => Split.index_lt s.prime b.term hk) hs]

/-- A stream of an integer field with two terms, a field without terms and a byte field, split
into two parts and merged back. -/
theorem merge_split_eq_three_fields :
    let v : Ftgs := [⟨⟨"n", .int⟩, [⟨.int 1, 1, [⟨0, [5]⟩]⟩, ⟨.int 2, 2, [⟨0, [1]⟩, ⟨1, [3]⟩]⟩]⟩,
      ⟨⟨"e", .int⟩, []⟩, ⟨⟨"s", .string⟩, [⟨.bytes [97], 1, [⟨1, [2]⟩]⟩]⟩]
    0 < 2 ∧ Fits 1 (Replay.ofBlocks v 1 2).numGroups v ∧ v.Sorted ∧
      ∃ readers m, standard.inMemory (Replay.ofBlocks v 1 2) 2 none = .ok readers ∧
        Merger.create readers = .ok m ∧ (Cursor.collect.apply m).1 = .ok v := by
  intro v
  have hv : Fits 1 (Replay.ofBlocks v 1 2).numGroups v := by
    have hg : (Replay.ofBlocks v 1 2).numGroups = 2 := by decide
    rw [hg]
    simp only [v, Fits, TermsFit, GroupsFit, Utf8.ofString_eq_flatMap]
    decide
  have hs : v.Sorted := by
    simp only [v, Ftgs.Sorted, Merge.Ascending]
    decide
  exact ⟨by decide, hv, hs, merge_split_eq standard (by decide) hv hs⟩

/-- Split in memory into `k` parts, several streams that stand at their starts, visit the same
fields, agree on their stat count, have strictly ascending terms and are accepted by a reader
with their bounds give `i`-th parts whose merge reads as the merge of the streams cut down to the
terms whose split index is `i`, every field kept. -/
theorem merge_parts_eq_keepTerms (s : Splitter) {k i n : Nat} (hi : i < k) {inputs : List Replay}
    (hne : inputs ≠ []) (hstart : ∀ r ∈ inputs, r.fieldPos = 0)
    (hfit : ∀ r ∈ inputs, r.numStats = n ∧ Fits n r.numGroups r.blocks ∧
      ∀ f ∈ r.blocks, Merge.Ascending f.terms)
    (haligned : Merge.Aligned (inputs.map (·.blocks))) :
    ∃ parts w m m', List.Forall₂ (fun r c => ∃ cs, s.inMemory r k none = .ok cs ∧ cs[i]? = some c)
        inputs parts ∧
      Merger.create inputs = .ok m' ∧ (Cursor.collect.apply m').1 = .ok w ∧
      Merger.create parts = .ok m ∧
      (Cursor.collect.apply m).1 = .ok (w.keepTerms fun t => s.index t k = i) := by
  have hk : 0 < k := Nat.lt_of_le_of_lt (Nat.zero_le i) hi
  have hfits : ∀ r ∈ inputs, Fits r.numStats r.numGroups r.blocks := fun r hr =>
    (hfit r hr).1 ▸ (hfit r hr).2.1
  -- the merge of the streams themselves
  obtain ⟨m', hm', hcollect'⟩ := Merger.collect_create viewSim_self
    (fun r _ h => h ▸ groups_view_le r)
    (List.forall₂_map_right_iff.mpr (List.forall₂_same.mpr fun r hr =>
      start_of_fieldPos (hstart r hr) (hfits r hr).group_lt))
    hne (fun r hr => (hfit r hr).1) haligned
  -- the merge of their `i`-th parts
  obtain ⟨m, hm, hcollect⟩ := Merger.collect_create Reader.shows_viewSim
    (fun _ _ h => h.groups_le)
    (Reader.forall₂_start_ofBytes inputs (fun r => r.blocks.keepTerms fun t => s.index t k = i)
      fun r hr => (hfits r hr).keepTerms _)
    (by simpa using hne)
    (fun c hc => by obtain ⟨r, hr, rfl⟩ := List.mem_map.mp hc; exact (hfit r hr).1)
    (fun u hu w hw => by
      obtain ⟨r, hr, rfl⟩ := List.mem_map.mp hu
      obtain ⟨r', hr', rfl⟩ := List.mem_map.mp hw
      simpa using haligned _ (List.mem_map_of_mem hr) _ (List.mem_map_of_mem hr'))
  refine ⟨_, _, m, m', ?_, hm', hcollect', hm, ?_⟩
  · -- each part is the `i`-th reader of its stream's split
    refine List.forall₂_map_right_iff.mpr (List.forall₂_same.mpr fun r hr => ?_)
    refine ⟨_, inMemory_eq viewSim_self s hk (show r.view = _ from rfl)
      (by rw [view_of_fieldPos (hstart r hr)]; rfl)
      (Ftgs.bounded_size r.blocks) (hfits r hr).stats_length, ?_⟩
    simp only [List.getElem?_map, List.getElem?_range hi, Option.map_some]
    rfl
  · have hasc : ∀ v ∈ inputs.map (·.blocks), ∀ f ∈ v, Merge.Ascending f.terms := by
      intro v hv
      obtain ⟨r, hr, rfl⟩ := List.mem_map.mp hv
      exact (hfit r hr).2.2
    rw [hcollect, Merge.keepTerms_fields _ _ hasc, List.map_map]
    rfl

/-- Two streams of one field with an overlapping term, split into two parts each, and the merge
of their first parts. -/
theorem merge_parts_eq_keepTerms_two_streams :
    let inputs := [Replay.ofBlocks [⟨⟨"n", .int⟩, [⟨.int 1, 1, [⟨0, [5]⟩]⟩, ⟨.int 2, 1, [⟨1, [1]⟩]⟩]⟩] 1 2,
      Replay.ofBlocks [⟨⟨"n", .int⟩, [⟨.int 2, 1, [⟨0, [3]⟩]⟩]⟩] 1 2]
    0 < 2 ∧ inputs ≠ [] ∧ (∀ r ∈ inputs, r.fieldPos = 0) ∧
      (∀ r ∈ inputs, r.numStats = 1 ∧ Fits 1 r.numGroups r.blocks ∧
        ∀ f ∈ r.blocks, Merge.Ascending f.terms) ∧
      Merge.Aligned (inputs.map (·.blocks)) ∧
      ∃ parts w m m', List.Forall₂
          (fun r c => ∃ cs, standard.inMemory r 2 none = .ok cs ∧ cs[0]? = some c) inputs parts ∧
        Merger.create inputs = .ok m' ∧ (Cursor.collect.apply m').1 = .ok w ∧
        Merger.create parts = .ok m ∧
        (Cursor.collect.apply m).1 = .ok (w.keepTerms fun t => standard.index t 2 = 0) := by
  intro inputs
  have hstart : ∀ r ∈ inputs, r.fieldPos = 0 := by decide
  have hfit : ∀ r ∈ inputs, r.numStats = 1 ∧ Fits 1 r.numGroups r.blocks ∧
      ∀ f ∈ r.blocks, Merge.Ascending f.terms := by
    simp only [inputs, Fits, TermsFit, GroupsFit, Merge.Ascending, Utf8.ofString_eq_flatMap]
    decide
  have haligned : Merge.Aligned (inputs.map (·.blocks)) := by
    simp only [inputs, Merge.Aligned]
    decide
  exact ⟨by decide, by simp [inputs], hstart, hfit, haligned,
    merge_parts_eq_keepTerms standard (by decide) (by simp [inputs]) hstart hfit haligned⟩

end Splitter

end GroupStats
