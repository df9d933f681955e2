import GroupStats.Group.Regroup

/-!
# Per-group summaries

Sums of a stat per group, the total document frequency of fields, and the number of distinct
terms per group. Group 0 always counts zero.
-/

namespace GroupStats

namespace Lookup

/-- The wrapping sum of a stat over the documents of each group, walking the documents in
batches; entry `g` is group `g`'s sum, and there is one entry per group of the bound. -/
def sumByGroup (l : Lookup) (stat : StatColumn) (batch : Nat) : Array Int64 :=
  let docs := (List.range l.size).map Nat.toUInt32
  (chunks batch docs).foldl (fun totals part =>
    ((l.groupsOf part).zip (stat.lookup part)).foldl (fun totals (g, v) =>
      if g = noGroup then totals
      else totals.modify g.toNat (· + v)) totals)
    (Array.replicate l.numGroups.toNat 0)

/-- For each group, the number of distinct terms of a field held by one of its documents. -/
def distinctByGroup (l : Lookup) (s : Shard) (batch : Nat) (f : Field) : Array Int64 :=
  let counts := (s.lists f).foldl (fun counts (_, docs) =>
    let seen := (chunks batch docs).foldl (fun seen part =>
      part.foldl (fun seen d =>
        let g := l.get d
        if g = noGroup then seen else seen.insert g) seen) (SeenGroups.empty l.numGroups.toNat)
    seen.sorted.foldl (fun counts g => counts.modify g.toNat (· + 1)) counts)
    (Array.replicate l.numGroups.toNat 0)
  counts

end Lookup

namespace Shard

/-- The sum of the document frequencies of every term of the fields, saturating. -/
def totalDocFreq (s : Shard) (fields : List Field) : UInt64 :=
  fields.foldl (fun total f =>
    let freq := (s.terms f).entries.foldl (fun acc e => satAdd acc e.docFreq) 0
    satAdd total freq) 0
where
  satAdd (a b : UInt64) : UInt64 := if a + b < a then 18446744073709551615 else a + b

end Shard

end GroupStats
