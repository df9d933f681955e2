import GroupStats.Core.Term
import GroupStats.Hash.Murmur

/-!
# Split indices

A term goes to split `((t · P + 12345) & 0x7FFFFFFF) >> 16 mod K` of `K`, where `P` is the
configured large prime and `t` is the term: an integer term itself in 64-bit wrapping
arithmetic, a byte term through its Murmur hash in 32-bit wrapping arithmetic. Every node
computes the same index from the term, `P` and `K` alone.
-/

namespace GroupStats

namespace Split

/-- The prime used when none is configured. -/
def defaultPrime : Int32 := 2147483629

/-- The split of an integer term. -/
def indexInt (t : Int64) (prime : Int32) (count : Nat) : Nat :=
  let mixed := (t * prime.toInt64 + 12345) &&& 0x7FFFFFFF
  (mixed >>> 16).toNatClampNeg % count

/-- The split of a byte term. -/
def indexBytes (b : Bytes) (prime : Int32) (count : Nat) : Nat :=
  let h := (Murmur.hash b).toInt32
  let mixed := (h * prime + 12345) &&& 0x7FFFFFFF
  (mixed >>> 16).toNatClampNeg % count

/-- The split of a term. -/
def index (prime : Int32) (t : Term) (count : Nat) : Nat :=
  match t with
  | .int v => indexInt v prime count
  | .bytes b => indexBytes b prime count

/-- Every index is one of the splits. -/
theorem index_lt (prime : Int32) (t : Term) {count : Nat} (h : 0 < count) :
    index prime t count < count := by
  cases t <;> exact Nat.mod_lt _ h

end Split

end GroupStats
