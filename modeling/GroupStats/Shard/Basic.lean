import GroupStats.Merge.Source
import GroupStats.Shard.Column

/-!
# Shards in memory

A `Shard` holds the inverted lists of its fields: for each integer and each string field, by
name ascending, the field's terms ascending, each with the ascending documents holding it.
Adding documents to a term merges them into its list. A field the shard does not have reads
as empty. A stat is either `count()`, one for every document, or an integer field, whose value
for a document is the largest term it holds, and zero when it holds none.
-/

namespace GroupStats

/-- Cuts a list into consecutive pieces of `n` elements, the last one shorter; a piece size of
0 counts as 1. -/
def chunks (n : Nat) (xs : List α) : List (List α) :=
  match xs with
  | [] => []
  | x :: rest =>
    let k := if n = 0 then 1 else n
    (x :: rest).take k :: chunks n ((x :: rest).drop k)
termination_by xs.length
decreasing_by simp only [List.length_drop, List.length_cons]; split <;> omega

/-- The inverted list of one field: terms ascending, each with its ascending documents. -/
abbrev TermLists := List (Term × List DocId)

/-- A shard of documents with their fields. -/
structure Shard where
  numDocs : Nat
  intFields : List (String × TermLists) := []
  stringFields : List (String × TermLists) := []
  deriving DecidableEq, Repr

namespace Shard

/-- The name of the stat that counts documents. -/
def countMetric : String := "count()"

/-- Merges documents into an ascending list without repeats. -/
def mergeDocs (old new : List DocId) : List DocId :=
  (old ++ new).mergeSort (· ≤ ·) |>.eraseDups

/-- Adds documents to a term of an inverted list. -/
def addTerm (t : Term) (docs : List DocId) : TermLists → TermLists
  | [] => [(t, mergeDocs [] docs)]
  | (u, ds) :: rest =>
    match Term.compare t u with
    | .lt => (t, mergeDocs [] docs) :: (u, ds) :: rest
    | .eq => (u, mergeDocs ds docs) :: rest
    | .gt => (u, ds) :: addTerm t docs rest

/-- Adds documents to a term of a named field, in a list of fields by name. -/
def addField (name : String) (t : Term) (docs : List DocId) :
    List (String × TermLists) → List (String × TermLists)
  | [] => [(name, addTerm t docs [])]
  | (n, ts) :: rest =>
    if name < n then (name, addTerm t docs []) :: (n, ts) :: rest
    else if name = n then (n, addTerm t docs ts) :: rest
    else (n, ts) :: addField name t docs rest

/-- Adds documents to a term of a field. -/
def add (s : Shard) (f : Field) (t : Term) (docs : List DocId) : Shard :=
  match f.type with
  | .int => { s with intFields := addField f.name t docs s.intFields }
  | .string => { s with stringFields := addField f.name t docs s.stringFields }

/-- A shard where each column gives every document one value of an integer field. -/
def ofIntColumns (numDocs : Nat) (columns : List (String × List Int64)) : Shard :=
  columns.foldl (fun s (name, values) =>
    (values.zipIdx).foldl (fun s (v, doc) => s.add (Field.int name) (.int v) [doc.toUInt32]) s)
    { numDocs }

/-- The names of the fields of a type, ascending. -/
def fieldNames (s : Shard) : FieldType → List String
  | .int => s.intFields.map (·.1)
  | .string => s.stringFields.map (·.1)

/-- The inverted list of a field; empty for a field the shard does not have. -/
def lists (s : Shard) (f : Field) : TermLists :=
  let fields := match f.type with
    | .int => s.intFields
    | .string => s.stringFields
  ((fields.find? (·.1 == f.name)).map (·.2)).getD []

/-- A term source over a field. -/
def terms (s : Shard) (f : Field) : Postings := Postings.ofLists (s.lists f)

/-- The values of a stat: `count()` or an integer field. -/
def stat (s : Shard) (metric : String) : Except Error StatColumn :=
  if metric = countMetric then .ok ⟨Array.replicate s.numDocs 1⟩
  else
    match s.intFields.find? (·.1 == metric) with
    | none => .error (.invalidArgument (.unknownMetric metric))
    | some (_, ts) =>
      .ok ⟨ts.foldl (fun vs (t, docs) =>
        let v := match t with
          | .int v => v
          | .bytes _ => 0
        docs.foldl (fun vs d => vs.setIfInBounds d.toNat v) vs) (Array.replicate s.numDocs 0)⟩

end Shard

end GroupStats
