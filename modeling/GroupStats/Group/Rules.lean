import GroupStats.Error

/-!
# Regroup rules

A `Condition` tests the term being scanned: it fires for a term of its own field that equals
its term, or that sorts at or before it when it is an inequality. A `Rule` sends the documents
of its target group to its positive group when its condition fires for one of their terms,
and to its negative group otherwise; a `MultiRule` has a list of conditions, and the first
that fires picks the destination. A `RuleTable` indexes rules by target group, keeping the
first rule given for a group and dropping rules no document can reach.
-/

namespace GroupStats

/-- Fails on the first destination group at or past the group bound. -/
def checkGroups (gs : List GroupId) : Except Error Unit :=
  match gs.find? (· ≥ maxNumGroups) with
  | some g => .error (.invalidArgument (.groupTooLarge g))
  | none => .ok ()

/-- A test of the term being scanned. -/
structure Condition where
  field : Field
  term : Term
  inequality : Bool
  deriving DecidableEq, Repr

namespace Condition

/-- `field = term` on an integer field. -/
def intEq (name : String) (t : Int64) : Condition := ⟨Field.int name, .int t, false⟩
/-- `field ≤ term` on an integer field. -/
def intLe (name : String) (t : Int64) : Condition := ⟨Field.int name, .int t, true⟩
/-- `field = term` on a string field. -/
def stringEq (name : String) (t : String) : Condition := ⟨Field.string name, .ofString t, false⟩
/-- `field ≤ term`, in byte order, on a string field. -/
def stringLe (name : String) (t : String) : Condition := ⟨Field.string name, .ofString t, true⟩

/-- Whether a document holding `t` in field `f` meets the condition. -/
def fires (c : Condition) (f : Field) (t : Term) : Bool :=
  c.field == f &&
    match c.term, t with
    | .int bound, .int v => if c.inequality then v ≤ bound else v == bound
    | .bytes bound, .bytes v =>
      if c.inequality then Bytes.compareLex v bound != .gt else v == bound
    | _, _ => false

/-- A condition must compare against a term of its field's type. -/
def validate (c : Condition) : Except Error Unit :=
  if c.term.fieldType = c.field.type then .ok ()
  else .error (.invalidArgument (.conditionType c.field c.term.fieldType))

end Condition

/-- A rule with one condition for the documents of its target group. -/
structure Rule where
  target : GroupId
  condition : Condition
  negative : GroupId
  positive : GroupId
  deriving DecidableEq, Repr

/-- A rule with a list of conditions, each with its destination. -/
structure MultiRule where
  target : GroupId
  negative : GroupId
  conditions : List Condition
  positives : List GroupId
  deriving DecidableEq, Repr

/-- A multi-rule; conditions and destinations pair up by position. -/
def MultiRule.create (target negative : GroupId) (conditions : List Condition)
    (positives : List GroupId) : Except Error MultiRule :=
  if conditions.length = positives.length then .ok ⟨target, negative, conditions, positives⟩
  else .error (.invalidArgument (.ruleLengths conditions.length positives.length))

/-- What a rule table needs of a rule. -/
class Targeted (ρ : Type) where
  target : ρ → GroupId
  conditions : ρ → List Condition
  destinations : ρ → List GroupId

instance : Targeted Rule where
  target r := r.target
  conditions r := [r.condition]
  destinations r := [r.negative, r.positive]

instance : Targeted MultiRule where
  target r := r.target
  conditions r := r.conditions
  destinations r := r.positives ++ [r.negative]

/-- Rules indexed by their target group, at most one per group, with the fields they read. -/
structure RuleTable (ρ : Type) where
  /-- Rules by target group, ascending. -/
  entries : List (GroupId × ρ) := []
  /-- The fields the kept rules read, in first-seen order. -/
  fields : List Field := []

namespace RuleTable

variable {ρ : Type} [Targeted ρ]

/-- Inserts an entry into a list ascending by group. -/
def insertEntry (e : GroupId × ρ) : List (GroupId × ρ) → List (GroupId × ρ)
  | [] => [e]
  | x :: xs => if e.1 < x.1 then e :: x :: xs else x :: insertEntry e xs

/-- Adds one rule to a table for a lookup of `numGroups` groups. -/
def add (numGroups : UInt32) (t : RuleTable ρ) (r : ρ) : Except Error (RuleTable ρ) := do
  for c in Targeted.conditions r do c.validate
  checkGroups (Targeted.destinations r)
  let g := Targeted.target r
  if g = noGroup ∨ g ≥ numGroups then return t
  if t.entries.any (·.1 == g) then return t
  let fields := (Targeted.conditions r).foldl
    (fun fs c => if fs.contains c.field then fs else fs ++ [c.field]) t.fields
  return { entries := insertEntry (g, r) t.entries, fields }

/-- Indexes rules for a lookup of `numGroups` groups. -/
def build (rules : List ρ) (numGroups : UInt32) : Except Error (RuleTable ρ) :=
  rules.foldlM (add numGroups) {}

/-- The rule for documents of a group. -/
def get? (t : RuleTable ρ) (g : GroupId) : Option ρ := (t.entries.find? (·.1 == g)).map (·.2)

/-- The number of groups with a rule. -/
def size (t : RuleTable ρ) : Nat := t.entries.length

end RuleTable

end GroupStats
