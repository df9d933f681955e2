import GroupStats.Stream.Basic

/-!
# Records of the wire format

A stream travels as records, each framed by a one-byte tag; integers are big-endian.

```text
field switch   0x01 | type u8 (0 int, 1 string) | name_len u32 | name
int term       0x02 | term i64 | doc_freq u64
bytes term     0x03 | len u32 | bytes | doc_freq u64
group          0x04 | group u32 | stat i64 × num_stats
```

The stream ends where the bytes end, on a record boundary. The stat count and the group
bound travel out of band.
-/

namespace GroupStats

namespace Wire

/-- The tag of a field record. -/
def fieldTag : UInt8 := 0x01
/-- The tag of an integer term record. -/
def intTermTag : UInt8 := 0x02
/-- The tag of a byte term record. -/
def bytesTermTag : UInt8 := 0x03
/-- The tag of a group record. -/
def groupTag : UInt8 := 0x04

/-- The longest name or byte term a reader accepts. -/
def maxLength : Nat := 64 * 1024 * 1024

/-- One record of the wire format. -/
inductive Record where
  | field (f : Field)
  | intTerm (term : Int64) (docFreq : UInt64)
  | bytesTerm (term : Bytes) (docFreq : UInt64)
  | group (group : GroupId) (stats : List Int64)
  deriving DecidableEq, Repr

/-- The bytes of a record. -/
def Record.encode : Record → Bytes
  | .field f =>
    let name := Bytes.ofString f.name
    fieldTag :: f.type.flag :: Bytes.ofUInt32 name.length.toUInt32 ++ name
  | .intTerm t df => intTermTag :: Bytes.ofInt64 t ++ Bytes.ofUInt64 df
  | .bytesTerm b df => bytesTermTag :: Bytes.ofUInt32 b.length.toUInt32 ++ b ++ Bytes.ofUInt64 df
  | .group g stats => groupTag :: Bytes.ofUInt32 g ++ stats.flatMap Bytes.ofInt64

/-- The record of a term of either kind. -/
def Record.term : Term → UInt64 → Record
  | .int v, df => .intTerm v df
  | .bytes b, df => .bytesTerm b df

/-- The records of a stream held as a value, in order. -/
def records (s : Ftgs) : List Record :=
  s.flatMap fun f => .field f.field :: f.terms.flatMap fun t =>
    Record.term t.term t.docFreq :: t.groups.map fun g => .group g.group g.stats

/-- The bytes of a stream held as a value. -/
def encode (s : Ftgs) : Bytes := (records s).flatMap Record.encode

/-- Every record starts with its tag. -/
theorem Record.encode_ne_nil (r : Record) : r.encode ≠ [] := by
  cases r <;> simp [Record.encode]

end Wire

end GroupStats
