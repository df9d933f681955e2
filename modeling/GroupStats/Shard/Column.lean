import GroupStats.Core.Term

/-!
# Stat columns

A stat gives every document of a shard one signed 64-bit value. A `StatColumn` holds them
densely, indexed by document id, and counts eight bytes per document.
-/

namespace GroupStats

/-- Per-document values of one stat. -/
structure StatColumn where
  values : Array Int64
  deriving DecidableEq, Repr

namespace StatColumn

/-- The number of documents covered. -/
def numDocs (c : StatColumn) : Nat := c.values.size

/-- The value of a document; a document past the end counts zero. -/
def get (c : StatColumn) (doc : DocId) : Int64 := c.values.getD doc.toNat 0

/-- The values of a list of documents. -/
def lookup (c : StatColumn) (docs : List DocId) : List Int64 := docs.map c.get

/-- The bytes the column holds. -/
def memoryUsed (c : StatColumn) : UInt64 := 8 * c.values.size.toUInt64

end StatColumn

end GroupStats
