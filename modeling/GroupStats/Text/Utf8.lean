import GroupStats.Bytes

/-!
# UTF-8 decoding

A byte string splits into pieces from the front: a well-formed character, a run of bytes that
starts no character, or a cut, where the input ends inside a character. The run of a bad
piece is the longest prefix that could still have begun a character, so it is one, two or
three bytes long. Strict decoding refuses at the first bad piece or cut and reports where the
valid prefix ends; lenient decoding puts one replacement character in place of each.
-/

namespace GroupStats

namespace Utf8

/-- One piece at the front of a byte string. -/
inductive Piece where
  /-- A well-formed character of the given width in bytes. -/
  | char (c : Char) (width : Nat)
  /-- A run of bytes that begins no character. -/
  | bad (len : Nat)
  /-- The input ends inside a character that began with this many bytes. -/
  | cut (len : Nat)
  deriving DecidableEq, Repr

/-- A continuation byte has the bit pattern 10xxxxxx. -/
def isCont (b : UInt8) : Bool := b &&& 0xC0 == 0x80

/-- The second byte allowed after a three-byte lead: it excludes overlong forms and
surrogates. -/
def secondOfThree (b0 b1 : UInt8) : Bool :=
  if b0 == 0xE0 then 0xA0 ≤ b1 && b1 ≤ 0xBF
  else if b0 == 0xED then 0x80 ≤ b1 && b1 ≤ 0x9F
  else isCont b1

/-- The second byte allowed after a four-byte lead: it excludes overlong forms and code
points above U+10FFFF. -/
def secondOfFour (b0 b1 : UInt8) : Bool :=
  if b0 == 0xF0 then 0x90 ≤ b1 && b1 ≤ 0xBF
  else if b0 == 0xF4 then 0x80 ≤ b1 && b1 ≤ 0x8F
  else isCont b1

/-- The payload bits of a byte under the given mask, as a number. -/
def bits (b : UInt8) (mask : UInt8) : Nat := (b &&& mask).toNat

/-- Split a byte string into its pieces, front to back. -/
def pieces : Bytes → List Piece
  | [] => []
  | b0 :: rest =>
    if b0 < 0x80 then .char (Char.ofNat b0.toNat) 1 :: pieces rest
    else if b0 < 0xC2 then .bad 1 :: pieces rest
    else if b0 < 0xE0 then
      match h : rest with
      | b1 :: r =>
        if isCont b1 then .char (Char.ofNat (bits b0 0x1F * 64 + bits b1 0x3F)) 2 :: pieces r
        else .bad 1 :: pieces rest
      | [] => [.cut 1]
    else if b0 < 0xF0 then
      match h : rest with
      | b1 :: r =>
        if secondOfThree b0 b1 then
          match h2 : r with
          | b2 :: r2 =>
            if isCont b2 then
              .char (Char.ofNat (bits b0 0x0F * 4096 + bits b1 0x3F * 64 + bits b2 0x3F)) 3
                :: pieces r2
            else .bad 2 :: pieces r
          | [] => [.cut 2]
        else .bad 1 :: pieces rest
      | [] => [.cut 1]
    else if b0 < 0xF5 then
      match h : rest with
      | b1 :: r =>
        if secondOfFour b0 b1 then
          match h2 : r with
          | b2 :: r2 =>
            if isCont b2 then
              match h3 : r2 with
              | b3 :: r3 =>
                if isCont b3 then
                  .char (Char.ofNat (bits b0 0x07 * 262144 + bits b1 0x3F * 4096
                    + bits b2 0x3F * 64 + bits b3 0x3F)) 4 :: pieces r3
                else .bad 3 :: pieces r2
              | [] => [.cut 3]
            else .bad 2 :: pieces r
          | [] => [.cut 2]
        else .bad 1 :: pieces rest
      | [] => [.cut 1]
    else .bad 1 :: pieces rest
termination_by b => b.length
decreasing_by all_goals simp_all <;> omega

/-- Where strict decoding stopped: the length of the valid prefix, and the length of the bad
run, or none when the input ended inside a character. -/
structure Failure where
  validUpTo : Nat
  errorLen : Option Nat
  deriving DecidableEq, Repr

/-- The description of a decoding failure. -/
def Failure.message (f : Failure) : String :=
  match f.errorLen with
  | some n => "invalid utf-8 sequence of " ++ toString n ++ " bytes from index " ++
      toString f.validUpTo
  | none => "incomplete utf-8 byte sequence from index " ++ toString f.validUpTo

/-- Strict decoding of pieces, counting the bytes of the valid prefix. -/
def decodePieces (offset : Nat) : List Piece → Except Failure (List Char)
  | [] => .ok []
  | .char c w :: rest => (decodePieces (offset + w) rest).map (c :: ·)
  | .bad n :: _ => .error ⟨offset, some n⟩
  | .cut _ :: _ => .error ⟨offset, none⟩

/-- Strict decoding: the text whose UTF-8 form is the given bytes, or where that fails. -/
def decode (b : Bytes) : Except Failure String :=
  (decodePieces 0 (pieces b)).map String.ofList

/-- Whether the bytes are well-formed UTF-8. -/
def isValid (b : Bytes) : Bool :=
  match decode b with
  | .ok _ => true
  | .error _ => false

/-- The character put in place of each bad run and of a cut. -/
def replacement : Char := '�'

/-- The character a piece stands for in lenient decoding. -/
def Piece.lenient : Piece → Char
  | .char c _ => c
  | .bad _ => replacement
  | .cut _ => replacement

/-- Lenient decoding: one replacement character for every bad run and for a cut. -/
def lossy (b : Bytes) : String := String.ofList ((pieces b).map Piece.lenient)

@[simp] theorem pieces_nil : pieces [] = [] := by simp [pieces]

end Utf8

end GroupStats
