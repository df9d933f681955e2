import Mathlib
import GroupStats.Text.Utf8

/-!
# Decoding what was encoded

Strict UTF-8 decoding reads back the UTF-8 bytes of every text. Each character's bytes form
one well-formed piece at the front of the input, whatever follows, so the pieces of an
encoded text are its characters and decoding never stops early. Conversely, decoding succeeds
only on the UTF-8 bytes of the text it gives (`ofString_of_decode`): every character it reads was
written with the fewest bytes. Names travel this way through the wire format.
-/

namespace GroupStats

namespace Utf8

/-! ### Bytes as numbers -/

/-- A payload mask of `k` low bits keeps the byte modulo `2 ^ k`. -/
theorem bits_eq_mod (b m : UInt8) (k : Nat) (hm : m.toNat = 2 ^ k - 1) :
    bits b m = b.toNat % 2 ^ k := by
  rw [bits, UInt8.toNat_and, hm, Nat.and_two_pow_sub_one_eq_mod]

set_option maxRecDepth 2000 in
theorem isCont_iff (b : UInt8) : isCont b = true ↔ 0x80 ≤ b.toNat ∧ b.toNat < 0xC0 := by
  -- the mask test is checked on all 256 byte values
  have table : ∀ n < 256, (n &&& 192 = 128 ↔ 128 ≤ n ∧ n < 192) := by decide
  rw [isCont, beq_iff_eq, ← UInt8.toNat_inj, UInt8.toNat_and]
  exact table b.toNat b.toNat_lt

theorem toNat_ofNat_lt {n : Nat} (h : n < 256) : (UInt8.ofNat n).toNat = n := by
  simp [Nat.mod_eq_of_lt h]

theorem beq_iff_toNat {a b : UInt8} : (a == b) = true ↔ a.toNat = b.toNat := by
  rw [beq_iff_eq, UInt8.toNat_inj]

/-- The continuation byte that carries six bits of a code point. -/
theorem isCont_ofNat (x : Nat) : isCont (UInt8.ofNat (x % 64 + 128)) := by
  rw [isCont_iff, toNat_ofNat_lt (by omega)]
  omega

/-! ### One piece per lead byte -/

theorem pieces_one {b0 : UInt8} (rest : Bytes) (h0 : b0.toNat < 0x80) :
    pieces (b0 :: rest) = .char (Char.ofNat b0.toNat) 1 :: pieces rest := by
  rw [pieces.eq_def]
  have a : b0 < 0x80 := UInt8.lt_iff_toNat_lt.mpr h0
  simp only [a, if_true]

theorem pieces_two {b0 b1 : UInt8} (rest : Bytes) (h0 : 0xC2 ≤ b0.toNat) (h0' : b0.toNat < 0xE0)
    (h1 : isCont b1) :
    pieces (b0 :: b1 :: rest) =
      .char (Char.ofNat (bits b0 0x1F * 64 + bits b1 0x3F)) 2 :: pieces rest := by
  rw [pieces.eq_def]
  have a : ¬ b0 < 0x80 := by rw [UInt8.lt_iff_toNat_lt]; simp; omega
  have b : ¬ b0 < 0xC2 := by rw [UInt8.lt_iff_toNat_lt]; simp; omega
  have c : b0 < 0xE0 := UInt8.lt_iff_toNat_lt.mpr h0'
  simp only [a, b, c, h1, if_false, if_true]

theorem pieces_three {b0 b1 b2 : UInt8} (rest : Bytes) (h0 : 0xE0 ≤ b0.toNat)
    (h0' : b0.toNat < 0xF0) (h1 : secondOfThree b0 b1) (h2 : isCont b2) :
    pieces (b0 :: b1 :: b2 :: rest) =
      .char (Char.ofNat (bits b0 0x0F * 4096 + bits b1 0x3F * 64 + bits b2 0x3F)) 3
        :: pieces rest := by
  rw [pieces.eq_def]
  have a : ¬ b0 < 0x80 := by rw [UInt8.lt_iff_toNat_lt]; simp; omega
  have b : ¬ b0 < 0xC2 := by rw [UInt8.lt_iff_toNat_lt]; simp; omega
  have c : ¬ b0 < 0xE0 := by rw [UInt8.lt_iff_toNat_lt]; simp; omega
  have d : b0 < 0xF0 := UInt8.lt_iff_toNat_lt.mpr h0'
  simp only [a, b, c, d, h1, h2, if_false, if_true]

theorem pieces_four {b0 b1 b2 b3 : UInt8} (rest : Bytes) (h0 : 0xF0 ≤ b0.toNat)
    (h0' : b0.toNat < 0xF5) (h1 : secondOfFour b0 b1) (h2 : isCont b2) (h3 : isCont b3) :
    pieces (b0 :: b1 :: b2 :: b3 :: rest) =
      .char (Char.ofNat (bits b0 0x07 * 262144 + bits b1 0x3F * 4096 + bits b2 0x3F * 64
        + bits b3 0x3F)) 4 :: pieces rest := by
  rw [pieces.eq_def]
  have a : ¬ b0 < 0x80 := by rw [UInt8.lt_iff_toNat_lt]; simp; omega
  have b : ¬ b0 < 0xC2 := by rw [UInt8.lt_iff_toNat_lt]; simp; omega
  have c : ¬ b0 < 0xE0 := by rw [UInt8.lt_iff_toNat_lt]; simp; omega
  have d : ¬ b0 < 0xF0 := by rw [UInt8.lt_iff_toNat_lt]; simp; omega
  have e : b0 < 0xF5 := UInt8.lt_iff_toNat_lt.mpr h0'
  simp only [a, b, c, d, e, h1, h2, h3, if_false, if_true]

/-! ### Second bytes of long characters -/

/-- The second byte of an encoded three-byte character passes the overlong and surrogate
checks. -/
theorem secondOfThree_ofNat {v : Nat} (h : 0x800 ≤ v) (h' : v ≤ 0xFFFF)
    (hs : v < 0xD800 ∨ 0xDFFF < v) :
    secondOfThree (UInt8.ofNat (v / 4096 % 16 + 224)) (UInt8.ofNat (v / 64 % 64 + 128)) := by
  unfold secondOfThree
  have h0 := toNat_ofNat_lt (show v / 4096 % 16 + 224 < 256 by omega)
  have h1 := toNat_ofNat_lt (show v / 64 % 64 + 128 < 256 by omega)
  split
  · rename_i he
    rw [beq_iff_toNat, h0] at he
    simp only [Bool.and_eq_true, decide_eq_true_eq, UInt8.le_iff_toNat_le, h1]
    simp at he ⊢
    omega
  · split
    · rename_i _ he
      rw [beq_iff_toNat, h0] at he
      simp only [Bool.and_eq_true, decide_eq_true_eq, UInt8.le_iff_toNat_le, h1]
      simp at he ⊢
      omega
    · exact isCont_ofNat (v / 64)

/-- The second byte of an encoded four-byte character passes the overlong and range checks. -/
theorem secondOfFour_ofNat {v : Nat} (h : 0x10000 ≤ v) (h' : v < 0x110000) :
    secondOfFour (UInt8.ofNat (v / 262144 % 8 + 240)) (UInt8.ofNat (v / 4096 % 64 + 128)) := by
  unfold secondOfFour
  have h0 := toNat_ofNat_lt (show v / 262144 % 8 + 240 < 256 by omega)
  have h1 := toNat_ofNat_lt (show v / 4096 % 64 + 128 < 256 by omega)
  split
  · rename_i he
    rw [beq_iff_toNat, h0] at he
    simp only [Bool.and_eq_true, decide_eq_true_eq, UInt8.le_iff_toNat_le, h1]
    simp at he ⊢
    omega
  · split
    · rename_i _ he
      rw [beq_iff_toNat, h0] at he
      simp only [Bool.and_eq_true, decide_eq_true_eq, UInt8.le_iff_toNat_le, h1]
      simp at he ⊢
      omega
    · exact isCont_ofNat (v / 4096)

/-! ### Encoded characters and texts -/

/-- The bytes of a character are one well-formed piece that stands for it. -/
theorem pieces_encodeChar (c : Char) (rest : Bytes) :
    pieces (String.utf8EncodeChar c ++ rest) = .char c c.utf8Size :: pieces rest := by
  have hv := c.valid
  simp only [UInt32.isValidChar, Nat.isValidChar] at hv
  have hval : c.val.toNat = c.toNat := rfl
  rw [hval] at hv
  have hc : Char.ofNat c.toNat = c := Char.ofNat_toNat c
  have hle : ∀ n : UInt32, (c.val ≤ n ↔ c.toNat ≤ n.toNat) := fun n => UInt32.le_iff_toNat_le
  have hlt : ∀ n : UInt32, (n < c.val ↔ n.toNat < c.toNat) := fun n => UInt32.lt_iff_toNat_lt
  unfold String.utf8EncodeChar
  simp only [hval]
  -- one case per width; in each the payload bits add up to the code point
  by_cases h1 : c.toNat ≤ 0x7f
  · have hs : c.utf8Size = 1 := Char.utf8Size_eq_one_iff.mpr ((hle _).mpr h1)
    simp only [h1, if_true, List.cons_append, List.nil_append, hs]
    rw [pieces_one _ (by rw [toNat_ofNat_lt (by omega)]; omega), toNat_ofNat_lt (by omega), hc]
  by_cases h2 : c.toNat ≤ 0x7ff
  · have hs : c.utf8Size = 2 :=
      Char.utf8Size_eq_two_iff.mpr ⟨(hlt _).mpr (by simp; omega), (hle _).mpr h2⟩
    simp only [h1, h2, if_true, if_false, List.cons_append, List.nil_append, hs]
    rw [pieces_two _ (by rw [toNat_ofNat_lt (by omega)]; omega)
      (by rw [toNat_ofNat_lt (by omega)]; omega) (isCont_ofNat _)]
    rw [bits_eq_mod _ _ 5 (by decide), bits_eq_mod _ _ 6 (by decide),
      toNat_ofNat_lt (by omega), toNat_ofNat_lt (by omega)]
    have : (c.toNat / 64 % 32 + 192) % 2 ^ 5 * 64 + (c.toNat % 64 + 128) % 2 ^ 6 = c.toNat := by
      omega
    rw [this, hc]
  by_cases h3 : c.toNat ≤ 0xffff
  · have hs : c.utf8Size = 3 :=
      Char.utf8Size_eq_three_iff.mpr ⟨(hlt _).mpr (by simp; omega), (hle _).mpr (by simp; omega)⟩
    simp only [h1, h2, h3, if_true, if_false, List.cons_append, List.nil_append, hs]
    rw [pieces_three _ (by rw [toNat_ofNat_lt (by omega)]; omega)
      (by rw [toNat_ofNat_lt (by omega)]; omega) (secondOfThree_ofNat (by omega) h3 (by omega))
      (isCont_ofNat _)]
    rw [bits_eq_mod _ _ 4 (by decide), bits_eq_mod _ _ 6 (by decide),
      bits_eq_mod _ _ 6 (by decide), toNat_ofNat_lt (by omega), toNat_ofNat_lt (by omega),
      toNat_ofNat_lt (by omega)]
    have : (c.toNat / 4096 % 16 + 224) % 2 ^ 4 * 4096 + (c.toNat / 64 % 64 + 128) % 2 ^ 6 * 64
        + (c.toNat % 64 + 128) % 2 ^ 6 = c.toNat := by
      omega
    rw [this, hc]
  · have hs : c.utf8Size = 4 := Char.utf8Size_eq_four_iff.mpr ((hlt _).mpr (by simp; omega))
    simp only [h1, h2, h3, if_false, List.cons_append, List.nil_append, hs]
    rw [pieces_four _ (by rw [toNat_ofNat_lt (by omega)]; omega)
      (by rw [toNat_ofNat_lt (by omega)]; omega) (secondOfFour_ofNat (by omega) (by omega))
      (isCont_ofNat _) (isCont_ofNat _)]
    rw [bits_eq_mod _ _ 3 (by decide), bits_eq_mod _ _ 6 (by decide),
      bits_eq_mod _ _ 6 (by decide), bits_eq_mod _ _ 6 (by decide), toNat_ofNat_lt (by omega),
      toNat_ofNat_lt (by omega), toNat_ofNat_lt (by omega), toNat_ofNat_lt (by omega)]
    have : (c.toNat / 262144 % 8 + 240) % 2 ^ 3 * 262144
        + (c.toNat / 4096 % 64 + 128) % 2 ^ 6 * 4096 + (c.toNat / 64 % 64 + 128) % 2 ^ 6 * 64
        + (c.toNat % 64 + 128) % 2 ^ 6 = c.toNat := by
      omega
    rw [this, hc]

/-- The pieces of encoded characters are those characters. -/
theorem pieces_flatMap_encodeChar (cs : List Char) :
    pieces (cs.flatMap String.utf8EncodeChar) = cs.map fun c => .char c c.utf8Size := by
  induction cs with
  | nil => simp
  | cons c cs ih => rw [List.flatMap_cons, pieces_encodeChar, ih, List.map_cons]

theorem decodePieces_chars (offset : Nat) (cs : List Char) :
    decodePieces offset (cs.map fun c => .char c c.utf8Size) = .ok cs := by
  induction cs generalizing offset with
  | nil => rfl
  | cons c cs ih => simp only [List.map_cons, decodePieces, ih]; rfl

/-- The byte loop of `ByteArray.toList` collects the bytes from its index on. -/
theorem toList_loop (bs : ByteArray) (i : Nat) (r : List UInt8) :
    ByteArray.toList.loop bs i r = r.reverse ++ bs.data.toList.drop i := by
  induction i, r using ByteArray.toList.loop.induct bs with
  | case1 i r hi ih =>
    rw [ByteArray.toList.loop, if_pos hi, ih]
    have hi' : i < bs.data.toList.length := by simpa using hi
    have hget : bs.get! i = bs.data.toList[i] := by simp [ByteArray.get!, hi]
    rw [hget, List.reverse_cons, List.append_assoc, List.singleton_append,
      List.getElem_cons_drop]
  | case2 i r hi =>
    rw [ByteArray.toList.loop, if_neg hi]
    have : bs.data.toList.length ≤ i := by simpa using hi
    simp [List.drop_eq_nil_of_le this]

/-- The UTF-8 bytes of a text are the bytes of its characters in order. -/
theorem ofString_eq_flatMap (s : String) :
    Bytes.ofString s = s.toList.flatMap String.utf8EncodeChar := by
  rw [Bytes.ofString, ByteArray.toList, toList_loop, String.toUTF8_eq_toByteArray,
    ← String.utf8Encode_toList, List.utf8Encode]
  simp

/-- Strict decoding reads back the UTF-8 bytes of every text. -/
@[simp] theorem decode_ofString (s : String) : decode (Bytes.ofString s) = .ok s := by
  rw [decode, ofString_eq_flatMap, pieces_flatMap_encodeChar, decodePieces_chars]
  exact congrArg Except.ok (String.ofList_toList)

/-! ### Only the encoded form decodes -/

/-- A valid code point is the value of its character. -/
theorem toNat_val_ofNat {v : Nat} (h : v.isValidChar) : (Char.ofNat v).val.toNat = v := by
  simp [Char.ofNat, h, Char.ofNatAux]

theorem secondOfThree_iff {b0 b1 : UInt8} (h : secondOfThree b0 b1 = true) :
    0x80 ≤ b1.toNat ∧ b1.toNat < 0xC0 ∧ (b0.toNat = 0xE0 → 0xA0 ≤ b1.toNat) ∧
      (b0.toNat = 0xED → b1.toNat ≤ 0x9F) := by
  unfold secondOfThree at h
  split at h
  · rename_i he
    rw [beq_iff_toNat] at he
    simp only [Bool.and_eq_true, decide_eq_true_eq, UInt8.le_iff_toNat_le] at h
    simp at he h
    omega
  · split at h
    · rename_i hne he
      rw [beq_iff_toNat] at he hne
      simp only [Bool.and_eq_true, decide_eq_true_eq, UInt8.le_iff_toNat_le] at h
      simp at he hne h
      omega
    · rename_i hne hne'
      rw [beq_iff_toNat] at hne hne'
      rw [isCont_iff] at h
      simp at hne hne'
      omega

theorem secondOfFour_iff {b0 b1 : UInt8} (h : secondOfFour b0 b1 = true) :
    0x80 ≤ b1.toNat ∧ b1.toNat < 0xC0 ∧ (b0.toNat = 0xF0 → 0x90 ≤ b1.toNat) ∧
      (b0.toNat = 0xF4 → b1.toNat ≤ 0x8F) := by
  unfold secondOfFour at h
  split at h
  · rename_i he
    rw [beq_iff_toNat] at he
    simp only [Bool.and_eq_true, decide_eq_true_eq, UInt8.le_iff_toNat_le] at h
    simp at he h
    omega
  · split at h
    · rename_i hne he
      rw [beq_iff_toNat] at he hne
      simp only [Bool.and_eq_true, decide_eq_true_eq, UInt8.le_iff_toNat_le] at h
      simp at he hne h
      omega
    · rename_i hne hne'
      rw [beq_iff_toNat] at hne hne'
      rw [isCont_iff] at h
      simp at hne hne'
      omega

theorem encodeChar_one {b0 : UInt8} (h0 : b0.toNat < 0x80) :
    String.utf8EncodeChar (Char.ofNat b0.toNat) = [b0] := by
  have hv := toNat_val_ofNat (v := b0.toNat) (by simp only [Nat.isValidChar]; omega)
  unfold String.utf8EncodeChar
  simp only [hv, show b0.toNat ≤ 127 by omega, if_true, List.cons.injEq, and_true]
  exact UInt8.toNat_inj.mp (toNat_ofNat_lt (by omega))

theorem encodeChar_two {b0 b1 : UInt8} (h0 : 0xC2 ≤ b0.toNat) (h0' : b0.toNat < 0xE0)
    (h1 : isCont b1 = true) :
    String.utf8EncodeChar (Char.ofNat (bits b0 0x1F * 64 + bits b1 0x3F)) = [b0, b1] := by
  rw [isCont_iff] at h1
  rw [bits_eq_mod _ _ 5 (by decide), bits_eq_mod _ _ 6 (by decide)]
  have hv := toNat_val_ofNat (v := b0.toNat % 2 ^ 5 * 64 + b1.toNat % 2 ^ 6)
    (by simp only [Nat.isValidChar]; omega)
  unfold String.utf8EncodeChar
  simp only [hv, show ¬ b0.toNat % 2 ^ 5 * 64 + b1.toNat % 2 ^ 6 ≤ 127 by omega,
    show b0.toNat % 2 ^ 5 * 64 + b1.toNat % 2 ^ 6 ≤ 2047 by omega, if_true, if_false,
    List.cons.injEq, and_true]
  constructor <;> apply UInt8.toNat_inj.mp <;> rw [toNat_ofNat_lt (by omega)] <;> omega

theorem encodeChar_three {b0 b1 b2 : UInt8} (h0 : 0xE0 ≤ b0.toNat) (h0' : b0.toNat < 0xF0)
    (h1 : secondOfThree b0 b1 = true) (h2 : isCont b2 = true) :
    String.utf8EncodeChar (Char.ofNat (bits b0 0x0F * 4096 + bits b1 0x3F * 64 + bits b2 0x3F)) =
      [b0, b1, b2] := by
  have h1' := secondOfThree_iff h1
  rw [isCont_iff] at h2
  rw [bits_eq_mod _ _ 4 (by decide), bits_eq_mod _ _ 6 (by decide), bits_eq_mod _ _ 6 (by decide)]
  -- the lead byte and the second byte together exclude overlong forms and surrogates
  have hlo : 2048 ≤ b0.toNat % 2 ^ 4 * 4096 + b1.toNat % 2 ^ 6 * 64 + b2.toNat % 2 ^ 6 := by
    omega
  have hs : b0.toNat % 2 ^ 4 * 4096 + b1.toNat % 2 ^ 6 * 64 + b2.toNat % 2 ^ 6 < 0xD800 ∨
      0xDFFF < b0.toNat % 2 ^ 4 * 4096 + b1.toNat % 2 ^ 6 * 64 + b2.toNat % 2 ^ 6 := by
    omega
  have hv := toNat_val_ofNat
    (v := b0.toNat % 2 ^ 4 * 4096 + b1.toNat % 2 ^ 6 * 64 + b2.toNat % 2 ^ 6)
    (by simp only [Nat.isValidChar]; omega)
  unfold String.utf8EncodeChar
  simp only [hv, show ¬ b0.toNat % 2 ^ 4 * 4096 + b1.toNat % 2 ^ 6 * 64 + b2.toNat % 2 ^ 6 ≤ 127 by
      omega,
    show ¬ b0.toNat % 2 ^ 4 * 4096 + b1.toNat % 2 ^ 6 * 64 + b2.toNat % 2 ^ 6 ≤ 2047 by omega,
    show b0.toNat % 2 ^ 4 * 4096 + b1.toNat % 2 ^ 6 * 64 + b2.toNat % 2 ^ 6 ≤ 65535 by omega,
    if_true, if_false, List.cons.injEq, and_true]
  refine ⟨?_, ?_, ?_⟩ <;> apply UInt8.toNat_inj.mp <;> rw [toNat_ofNat_lt (by omega)] <;> omega

theorem encodeChar_four {b0 b1 b2 b3 : UInt8} (h0 : 0xF0 ≤ b0.toNat) (h0' : b0.toNat < 0xF5)
    (h1 : secondOfFour b0 b1 = true) (h2 : isCont b2 = true) (h3 : isCont b3 = true) :
    String.utf8EncodeChar (Char.ofNat (bits b0 0x07 * 262144 + bits b1 0x3F * 4096
      + bits b2 0x3F * 64 + bits b3 0x3F)) = [b0, b1, b2, b3] := by
  have h1' := secondOfFour_iff h1
  rw [isCont_iff] at h2 h3
  rw [bits_eq_mod _ _ 3 (by decide), bits_eq_mod _ _ 6 (by decide), bits_eq_mod _ _ 6 (by decide),
    bits_eq_mod _ _ 6 (by decide)]
  -- the lead byte and the second byte together exclude overlong forms and points past U+10FFFF
  have hlo : 0x10000 ≤ b0.toNat % 2 ^ 3 * 262144 + b1.toNat % 2 ^ 6 * 4096 +
      b2.toNat % 2 ^ 6 * 64 + b3.toNat % 2 ^ 6 := by
    omega
  have hhi : b0.toNat % 2 ^ 3 * 262144 + b1.toNat % 2 ^ 6 * 4096 + b2.toNat % 2 ^ 6 * 64 +
      b3.toNat % 2 ^ 6 < 0x110000 := by
    omega
  have hv := toNat_val_ofNat (v := b0.toNat % 2 ^ 3 * 262144 + b1.toNat % 2 ^ 6 * 4096 +
      b2.toNat % 2 ^ 6 * 64 + b3.toNat % 2 ^ 6) (by simp only [Nat.isValidChar]; omega)
  unfold String.utf8EncodeChar
  simp only [hv, show ¬ b0.toNat % 2 ^ 3 * 262144 + b1.toNat % 2 ^ 6 * 4096 +
      b2.toNat % 2 ^ 6 * 64 + b3.toNat % 2 ^ 6 ≤ 127 by omega,
    show ¬ b0.toNat % 2 ^ 3 * 262144 + b1.toNat % 2 ^ 6 * 4096 +
      b2.toNat % 2 ^ 6 * 64 + b3.toNat % 2 ^ 6 ≤ 2047 by omega,
    show ¬ b0.toNat % 2 ^ 3 * 262144 + b1.toNat % 2 ^ 6 * 4096 +
      b2.toNat % 2 ^ 6 * 64 + b3.toNat % 2 ^ 6 ≤ 65535 by omega,
    if_false, List.cons.injEq, and_true]
  refine ⟨?_, ?_, ?_, ?_⟩ <;> apply UInt8.toNat_inj.mp <;> rw [toNat_ofNat_lt (by omega)] <;> omega

theorem decodePieces_char {offset : Nat} {c : Char} {w : Nat} {ps : List Piece} {cs : List Char}
    (h : decodePieces offset (.char c w :: ps) = .ok cs) :
    ∃ cs', decodePieces (offset + w) ps = .ok cs' ∧ cs = c :: cs' := by
  simp only [decodePieces] at h
  cases hd : decodePieces (offset + w) ps with
  | error e => simp [hd, Except.map] at h
  | ok cs' =>
    simp only [hd, Except.map, Except.ok.injEq] at h
    exact ⟨cs', rfl, h.symm⟩

/-- Strict decoding succeeds only on the encoded form of what it gives: each character it reads
was written with the fewest bytes, and no surrogate or point past U+10FFFF is read. -/
theorem flatMap_encodeChar_of_decodePieces {b : Bytes} {offset : Nat} {cs : List Char}
    (h : decodePieces offset (pieces b) = .ok cs) : cs.flatMap String.utf8EncodeChar = b := by
  induction b using pieces.induct generalizing offset cs with
  | case1 => simp [decodePieces] at h; simp [h]
  | case2 b0 rest hlt ih =>
    rw [pieces_one rest (UInt8.lt_iff_toNat_lt.mp hlt)] at h
    obtain ⟨cs', hcs', rfl⟩ := decodePieces_char h
    rw [List.flatMap_cons, ih hcs', encodeChar_one (UInt8.lt_iff_toNat_lt.mp hlt)]
    rfl
  | case4 b0 _ h194 h224 b1 r hc ih =>
    have h0 : 0xC2 ≤ b0.toNat := by simpa [UInt8.lt_iff_toNat_lt] using h194
    rw [pieces_two r h0 (UInt8.lt_iff_toNat_lt.mp h224) hc] at h
    obtain ⟨cs', hcs', rfl⟩ := decodePieces_char h
    rw [List.flatMap_cons, ih hcs', encodeChar_two h0 (UInt8.lt_iff_toNat_lt.mp h224) hc]
    rfl
  | case7 b0 _ _ h224 h240 b1 hs b2 r2 hc ih =>
    have h0 : 0xE0 ≤ b0.toNat := by simpa [UInt8.lt_iff_toNat_lt] using h224
    rw [pieces_three r2 h0 (UInt8.lt_iff_toNat_lt.mp h240) hs hc] at h
    obtain ⟨cs', hcs', rfl⟩ := decodePieces_char h
    rw [List.flatMap_cons, ih hcs', encodeChar_three h0 (UInt8.lt_iff_toNat_lt.mp h240) hs hc]
    rfl
  | case12 b0 _ _ _ h240 h245 b1 hs b2 hc2 b3 r3 hc3 ih =>
    have h0 : 0xF0 ≤ b0.toNat := by simpa [UInt8.lt_iff_toNat_lt] using h240
    rw [pieces_four r3 h0 (UInt8.lt_iff_toNat_lt.mp h245) hs hc2 hc3] at h
    obtain ⟨cs', hcs', rfl⟩ := decodePieces_char h
    rw [List.flatMap_cons, ih hcs',
      encodeChar_four h0 (UInt8.lt_iff_toNat_lt.mp h245) hs hc2 hc3]
    rfl
  | _ =>
    -- every other piece is a bad run or a cut, where strict decoding fails
    rw [pieces.eq_def] at h
    simp only [*, ↓reduceIte] at h
    simp [decodePieces] at h

/-- Strict decoding succeeds only on the UTF-8 bytes of the text it gives. -/
theorem ofString_of_decode {b : Bytes} {s : String} (h : decode b = .ok s) :
    Bytes.ofString s = b := by
  unfold decode at h
  cases hd : decodePieces 0 (pieces b) with
  | error e => simp [hd, Except.map] at h
  | ok cs =>
    simp only [hd, Except.map, Except.ok.injEq] at h
    rw [← h, ofString_eq_flatMap, String.toList_ofList, flatMap_encodeChar_of_decodePieces hd]

end Utf8

end GroupStats
