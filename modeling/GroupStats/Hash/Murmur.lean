import GroupStats.Bytes

/-!
# The 32-bit Murmur hash

MurmurHash2 over a byte string: four-byte little-endian blocks are mixed into a state that
starts from the seed and the length, the last one to three bytes are folded in, and a final
avalanche spreads the bits. All arithmetic wraps at 32 bits.
-/

namespace GroupStats

namespace Murmur

/-- The fixed seed of the hash. -/
def seed : UInt32 := 0x9747b28c

/-- The multiplier of the mixing steps. -/
def mult : UInt32 := 0x5bd1e995

/-- Mixes one block into the state. -/
def mixBlock (h k : UInt32) : UInt32 :=
  let k := k * mult
  let k := k ^^^ (k >>> 24)
  let k := k * mult
  (h * mult) ^^^ k

/-- Mixes the blocks of the input, then folds in the one to three bytes left over. -/
def mixAll (h : UInt32) : Bytes → UInt32
  | b0 :: b1 :: b2 :: b3 :: rest =>
    mixAll (mixBlock h (b0.toUInt32 ||| (b1.toUInt32 <<< 8) ||| (b2.toUInt32 <<< 16) |||
      (b3.toUInt32 <<< 24))) rest
  | [b0, b1, b2] => (h ^^^ (b2.toUInt32 <<< 16) ^^^ (b1.toUInt32 <<< 8) ^^^ b0.toUInt32) * mult
  | [b0, b1] => (h ^^^ (b1.toUInt32 <<< 8) ^^^ b0.toUInt32) * mult
  | [b0] => (h ^^^ b0.toUInt32) * mult
  | [] => h

/-- The final avalanche. -/
def finish (h : UInt32) : UInt32 :=
  let h := h ^^^ (h >>> 13)
  let h := h * mult
  h ^^^ (h >>> 15)

/-- The hash of a byte string under a seed. -/
def hashSeeded (data : Bytes) (s : UInt32) : UInt32 :=
  finish (mixAll (s ^^^ data.length.toUInt32) data)

/-- The hash of a byte string under the fixed seed. -/
def hash (data : Bytes) : UInt32 := hashSeeded data seed

end Murmur

end GroupStats
