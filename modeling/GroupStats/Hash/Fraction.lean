import GroupStats.Core.Term
import GroupStats.Hash.Murmur

/-!
# Term fractions

A salted hash places every term at a point of `[0, 1)`: the Murmur hash of the term's key
followed by the salt, divided by `2^32`. The key of an integer term is its decimal text, that
of a byte term its bytes. Random regroups compare this point with their thresholds.
-/

namespace GroupStats

namespace Term

/-- The bytes a term is hashed by: the decimal text of an integer, or the bytes of a string. -/
def hashKey : Term → Bytes
  | .int v => Bytes.ofString (toString v.toInt)
  | .bytes b => b

/-- The salted hash of a term, before scaling. -/
def saltedHash (t : Term) (salt : String) : UInt32 :=
  Murmur.hash (t.hashKey ++ Bytes.ofString salt)

/-- The point of `[0, 1)` a salt gives a term: its salted hash over `2^32`. -/
def fraction (t : Term) (salt : String) : Float :=
  (t.saltedHash salt).toNat.toFloat / 4294967296.0

end Term

end GroupStats
