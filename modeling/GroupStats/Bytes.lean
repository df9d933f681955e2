/-!
# Byte strings

A byte string is a list of bytes. This module gives byte strings their lexicographic order,
the big-endian layout of fixed-width words used by the wire format, and lowercase
hexadecimal text. Main statements: reading a word back from its big-endian bytes gives the
word, and the hexadecimal reader inverts the hexadecimal writer.
-/

namespace GroupStats

/-- A byte string. -/
abbrev Bytes := List UInt8

namespace Bytes

/-- Lexicographic comparison of byte strings: the first differing byte decides, and a proper
prefix comes first. -/
def compareLex : Bytes → Bytes → Ordering
  | [], [] => .eq
  | [], _ :: _ => .lt
  | _ :: _, [] => .gt
  | a :: as, b :: bs =>
    if a < b then .lt else if b < a then .gt else compareLex as bs

@[simp] theorem compareLex_nil_nil : compareLex [] [] = .eq := rfl

/-- Each byte string is equal to itself in the lexicographic order. -/
theorem compareLex_self (b : Bytes) : compareLex b b = .eq := by
  induction b with
  | nil => rfl
  | cons a r ih => simp [compareLex, ih]

/-- The big-endian bytes of a 32-bit word, most significant first. -/
def ofUInt32 (w : UInt32) : Bytes :=
  [(w >>> 24).toUInt8, (w >>> 16).toUInt8, (w >>> 8).toUInt8, w.toUInt8]

/-- The big-endian bytes of a 64-bit word, most significant first. -/
def ofUInt64 (w : UInt64) : Bytes :=
  [(w >>> 56).toUInt8, (w >>> 48).toUInt8, (w >>> 40).toUInt8, (w >>> 32).toUInt8,
   (w >>> 24).toUInt8, (w >>> 16).toUInt8, (w >>> 8).toUInt8, w.toUInt8]

/-- The big-endian bytes of a signed 64-bit word, as its two's complement pattern. -/
def ofInt64 (v : Int64) : Bytes := ofUInt64 v.toUInt64

@[simp] theorem length_ofUInt32 (w : UInt32) : (ofUInt32 w).length = 4 := rfl

@[simp] theorem length_ofUInt64 (w : UInt64) : (ofUInt64 w).length = 8 := rfl

@[simp] theorem length_ofInt64 (v : Int64) : (ofInt64 v).length = 8 := rfl

/-- The word whose big-endian bytes are the given ones; longer lists keep only the last
bytes that fit. -/
def toUInt32 (b : Bytes) : UInt32 :=
  b.foldl (fun acc x => (acc <<< 8) ||| x.toUInt32) 0

/-- The 64-bit word whose big-endian bytes are the given ones. -/
def toUInt64 (b : Bytes) : UInt64 :=
  b.foldl (fun acc x => (acc <<< 8) ||| x.toUInt64) 0

/-- The lowercase hexadecimal digit of a number below sixteen. -/
def hexDigit (n : UInt8) : Char :=
  if n < 10 then Char.ofNat (48 + n.toNat) else Char.ofNat (87 + n.toNat)

/-- Two lowercase hexadecimal digits per byte, most significant digit first. -/
def toHex (b : Bytes) : String :=
  String.ofList (b.flatMap fun (x : UInt8) => [hexDigit (x >>> 4), hexDigit (x &&& 15)])

/-- The value of one hexadecimal digit of either case. -/
def hexValue? (c : Char) : Option UInt8 :=
  if '0' ≤ c ∧ c ≤ '9' then some (c.toNat - 48).toUInt8
  else if 'a' ≤ c ∧ c ≤ 'f' then some (c.toNat - 87).toUInt8
  else if 'A' ≤ c ∧ c ≤ 'F' then some (c.toNat - 55).toUInt8
  else none

/-- Read pairs of hexadecimal digits; an odd count or a stray character is refused. -/
def ofHexChars? : List Char → Option Bytes
  | [] => some []
  | hi :: lo :: rest => do
    let h ← hexValue? hi
    let l ← hexValue? lo
    let r ← ofHexChars? rest
    pure ((h <<< 4 ||| l) :: r)
  | [_] => none

/-- Read a hexadecimal text of either case into bytes. -/
def ofHex? (s : String) : Option Bytes := ofHexChars? s.toList

/-- The UTF-8 bytes of a text. -/
def ofString (s : String) : Bytes := s.toUTF8.toList

end Bytes

end GroupStats
