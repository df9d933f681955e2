import Mathlib
import GroupStats.Bytes

/-!
# Reading words back

The wire format writes fixed-width integers as their big-endian bytes. Reading those bytes
back with the folds of `Bytes` gives the word again, for 32-bit and 64-bit words and for
signed 64-bit words through their two's complement pattern; and four or eight bytes read as a
word are written back as themselves.
-/

namespace GroupStats

namespace Bytes

/-- One step of the 32-bit fold shifts in a byte below the bits kept so far. -/
theorem toNat_shiftLeft_or_32 (acc : UInt32) (x : UInt8) :
    ((acc <<< 8) ||| x.toUInt32).toNat = acc.toNat % 2 ^ 24 * 256 + x.toNat := by
  have hx : x.toNat < 2 ^ 8 := x.toNat_lt
  rw [UInt32.toNat_or, UInt32.toNat_shiftLeft, UInt8.toNat_toUInt32, Nat.shiftLeft_eq]
  have hlow : acc.toNat * 2 ^ (UInt32.toNat 8 % 32) % 2 ^ 32 = 2 ^ 8 * (acc.toNat % 2 ^ 24) := by
    rw [show UInt32.toNat 8 % 32 = 8 from rfl, Nat.mul_comm,
      show (2 : Nat) ^ 32 = 2 ^ 8 * 2 ^ 24 from rfl, Nat.mul_mod_mul_left]
  rw [hlow, ← Nat.two_pow_add_eq_or_of_lt hx]
  omega

/-- One step of the 64-bit fold shifts in a byte below the bits kept so far. -/
theorem toNat_shiftLeft_or_64 (acc : UInt64) (x : UInt8) :
    ((acc <<< 8) ||| x.toUInt64).toNat = acc.toNat % 2 ^ 56 * 256 + x.toNat := by
  have hx : x.toNat < 2 ^ 8 := x.toNat_lt
  rw [UInt64.toNat_or, UInt64.toNat_shiftLeft, UInt8.toNat_toUInt64, Nat.shiftLeft_eq]
  have hlow : acc.toNat * 2 ^ (UInt64.toNat 8 % 64) % 2 ^ 64 = 2 ^ 8 * (acc.toNat % 2 ^ 56) := by
    rw [show UInt64.toNat 8 % 64 = 8 from rfl, Nat.mul_comm,
      show (2 : Nat) ^ 64 = 2 ^ 8 * 2 ^ 56 from rfl, Nat.mul_mod_mul_left]
  rw [hlow, ← Nat.two_pow_add_eq_or_of_lt hx]
  omega

@[simp] theorem toUInt32_ofUInt32 (w : UInt32) : toUInt32 (ofUInt32 w) = w := by
  apply UInt32.toNat_inj.mp
  simp only [toUInt32, ofUInt32, List.foldl, toNat_shiftLeft_or_32, UInt32.toNat_toUInt8,
    UInt32.toNat_shiftRight, Nat.shiftRight_eq_div_pow, UInt32.reduceToNat, Nat.reduceMod]
  have hw := w.toNat_lt
  omega

@[simp] theorem toUInt64_ofUInt64 (w : UInt64) : toUInt64 (ofUInt64 w) = w := by
  apply UInt64.toNat_inj.mp
  simp only [toUInt64, ofUInt64, List.foldl, toNat_shiftLeft_or_64, UInt64.toNat_toUInt8,
    UInt64.toNat_shiftRight, Nat.shiftRight_eq_div_pow, UInt64.reduceToNat, Nat.reduceMod]
  have hw := w.toNat_lt
  omega

@[simp] theorem toInt64_toUInt64_ofInt64 (v : Int64) : (toUInt64 (ofInt64 v)).toInt64 = v := by
  rw [ofInt64, toUInt64_ofUInt64, Int64.toInt64_toUInt64]

/-- The length word of a list no longer than a 32-bit word holds reads back as its length. -/
theorem toNat_toUInt32_length {b : Bytes} (h : b.length < 2 ^ 32) :
    (toUInt32 (ofUInt32 b.length.toUInt32)).toNat = b.length := by
  rw [toUInt32_ofUInt32, Nat.toUInt32_eq, UInt32.toNat_ofNat', Nat.mod_eq_of_lt h]

/-- Four bytes read as a big-endian word are written back as themselves. -/
theorem ofUInt32_toUInt32 (a b c d : UInt8) : ofUInt32 (toUInt32 [a, b, c, d]) = [a, b, c, d] := by
  have hw : (toUInt32 [a, b, c, d]).toNat =
      a.toNat * 2 ^ 24 + b.toNat * 2 ^ 16 + c.toNat * 2 ^ 8 + d.toNat := by
    simp only [toUInt32, List.foldl, toNat_shiftLeft_or_32, UInt32.reduceToNat]
    have := a.toNat_lt; have := b.toNat_lt; have := c.toNat_lt; have := d.toNat_lt
    omega
  have := a.toNat_lt; have := b.toNat_lt; have := c.toNat_lt; have := d.toNat_lt
  simp only [ofUInt32, List.cons.injEq, and_true]
  refine ⟨?_, ?_, ?_, ?_⟩ <;> apply UInt8.toNat_inj.mp <;>
    simp only [UInt32.toNat_toUInt8, UInt32.toNat_shiftRight, Nat.shiftRight_eq_div_pow,
      UInt32.reduceToNat, Nat.reduceMod, hw] <;> omega

/-- Eight bytes read as a big-endian word are written back as themselves. -/
theorem ofUInt64_toUInt64 (a b c d e f g h : UInt8) :
    ofUInt64 (toUInt64 [a, b, c, d, e, f, g, h]) = [a, b, c, d, e, f, g, h] := by
  have := a.toNat_lt; have := b.toNat_lt; have := c.toNat_lt; have := d.toNat_lt
  have := e.toNat_lt; have := f.toNat_lt; have := g.toNat_lt; have := h.toNat_lt
  have hw : (toUInt64 [a, b, c, d, e, f, g, h]).toNat =
      a.toNat * 2 ^ 56 + b.toNat * 2 ^ 48 + c.toNat * 2 ^ 40 + d.toNat * 2 ^ 32 +
        e.toNat * 2 ^ 24 + f.toNat * 2 ^ 16 + g.toNat * 2 ^ 8 + h.toNat := by
    simp only [toUInt64, List.foldl, toNat_shiftLeft_or_64, UInt64.reduceToNat]
    omega
  simp only [ofUInt64, List.cons.injEq, and_true]
  refine ⟨?_, ?_, ?_, ?_, ?_, ?_, ?_, ?_⟩ <;> apply UInt8.toNat_inj.mp <;>
    simp only [UInt64.toNat_toUInt8, UInt64.toNat_shiftRight, Nat.shiftRight_eq_div_pow,
      UInt64.reduceToNat, Nat.reduceMod, hw] <;> omega

end Bytes

end GroupStats
