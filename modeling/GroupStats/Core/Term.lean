import GroupStats.Text.Utf8
import GroupStats.Text.Quoted

/-!
# Fields and terms

A field has a name and a type, integer or string. A term is the value of a field: a signed
64-bit integer or a byte string. Terms are ordered with every integer before every byte
string, integers by value and byte strings lexicographically; the streams of this library list
the terms of a field in that order.
-/

namespace GroupStats

/-- The type of a field. -/
inductive FieldType where
  | int
  | string
  deriving DecidableEq, Repr, Inhabited

namespace FieldType

/-- The name of a field type, as field descriptions write it. -/
def name : FieldType → String
  | .int => "int"
  | .string => "string"

/-- The one-byte flag that marks the type in a field record of the wire format. -/
def flag : FieldType → UInt8
  | .int => 0
  | .string => 1

/-- The type a wire flag stands for. -/
def ofFlag? (b : UInt8) : Option FieldType :=
  if b = 0 then some .int else if b = 1 then some .string else none

@[simp] theorem ofFlag?_flag (t : FieldType) : ofFlag? t.flag = some t := by
  cases t <;> rfl

/-- The name of the type in debug descriptions. -/
def debugName : FieldType → String
  | .int => "Int"
  | .string => "String"

end FieldType

/-- A field: a name with a type. Two fields are the same when name and type agree. -/
structure Field where
  name : String
  type : FieldType
  deriving DecidableEq, Repr, Inhabited

namespace Field

/-- The integer field of a name. -/
def int (name : String) : Field := ⟨name, .int⟩

/-- The string field of a name. -/
def string (name : String) : Field := ⟨name, .string⟩

/-- Whether the field holds integers. -/
def isInt (f : Field) : Bool := f.type == .int

/-- The description "name:type". -/
def display (f : Field) : String := f.name ++ ":" ++ f.type.name

/-- The debug description of a field. -/
def debug (f : Field) : String :=
  "Field \x7b name: " ++ Quoted.quote f.name ++ ", field_type: " ++ f.type.debugName ++ " \x7d"

end Field

/-- A term: a signed 64-bit integer or a byte string. -/
inductive Term where
  | int (value : Int64)
  | bytes (value : Bytes)
  deriving DecidableEq, Repr, Inhabited

namespace Term

/-- The field type a term belongs to. -/
def fieldType : Term → FieldType
  | .int _ => .int
  | .bytes _ => .string

/-- The order of terms: every integer first, integers by value, byte strings
lexicographically. -/
def compare : Term → Term → Ordering
  | .int a, .int b => if a < b then .lt else if b < a then .gt else .eq
  | .int _, .bytes _ => .lt
  | .bytes _, .int _ => .gt
  | .bytes a, .bytes b => Bytes.compareLex a b

instance : Ord Term := ⟨Term.compare⟩

instance : LT Term := ⟨fun a b => Term.compare a b = .lt⟩

instance (a b : Term) : Decidable (a < b) :=
  inferInstanceAs (Decidable (Term.compare a b = .lt))

/-- Whether the first term sorts at or before the second. -/
def le (a b : Term) : Bool := Term.compare a b != .gt

/-- A set of terms prepared for searching: sorted by the term order, with repeats dropped. -/
def sortedSet (terms : List Term) : Array Term :=
  (terms.mergeSort Term.le).eraseReps.toArray

/-- Whether the window `[lo, hi)` of an ascending array holds a term, halving the window: a
middle term below the one sought moves `lo` past it, one above moves `hi` to it. -/
def searchWindow (xs : Array Term) (t : Term) (lo hi : Nat) : Bool :=
  if h : lo < hi ∧ hi ≤ xs.size then
    have : lo + (hi - lo) / 2 < xs.size := by omega
    match Term.compare xs[lo + (hi - lo) / 2] t with
    | .lt => searchWindow xs t (lo + (hi - lo) / 2 + 1) hi
    | .gt => searchWindow xs t lo (lo + (hi - lo) / 2)
    | .eq => true
  else false
termination_by hi - lo

/-- Whether an ascending array holds a term, by binary search. -/
def search (xs : Array Term) (t : Term) : Bool := searchWindow xs t 0 xs.size

/-- The text of a term: the decimal form of an integer, or the bytes read as UTF-8 with a
replacement character for each bad sequence. -/
def display : Term → String
  | .int v => toString v.toInt
  | .bytes b => Utf8.lossy b

/-- The term of a text, by its UTF-8 bytes. -/
def ofString (s : String) : Term := .bytes (Bytes.ofString s)

/-- Each term is equal to itself in the term order. -/
theorem compare_self (t : Term) : Term.compare t t = .eq := by
  cases t with
  | int v => simp [Term.compare]
  | bytes b => exact Bytes.compareLex_self b

end Term

/-- Document ids. -/
abbrev DocId := UInt32

/-- Group ids; group 0 holds the documents that take part in nothing. -/
abbrev GroupId := UInt32

/-- The excluded group. -/
def noGroup : GroupId := 0

/-- The exclusive bound on group ids a regroup may create. -/
def maxNumGroups : UInt32 := 2147483647

end GroupStats
