import GroupStats.Shard.Column
import GroupStats.Text.Quoted
import GroupStats.Error

/-!
# The stat stack

The stats pushed on a session, in push order: a stat's place on the stack is its index in every
stat vector the session sends.
-/

namespace GroupStats

/-- The pushed stats: names and columns, most recent last. -/
structure StatStack where
  entries : List (String × StatColumn) := []
  deriving DecidableEq, Repr

namespace StatStack

/-- Pushes a stat; gives the new depth. -/
def push (s : StatStack) (metric : String) (c : StatColumn) : StatStack × Nat :=
  ({ entries := s.entries ++ [(metric, c)] }, s.entries.length + 1)

/-- Pops the most recent stat. -/
def pop (s : StatStack) : Except Error (String × StatColumn × StatStack) :=
  match s.entries.getLast? with
  | none => .error (.invalidArgument .emptyStatStack)
  | some (m, c) => .ok (m, c, { entries := s.entries.dropLast })

/-- The number of pushed stats. -/
def depth (s : StatStack) : Nat := s.entries.length

/-- The column at an index. -/
def get (s : StatStack) (i : Nat) : Except Error StatColumn :=
  match s.entries[i]? with
  | some (_, c) => .ok c
  | none => .error (.invalidArgument (.statIndex i s.entries.length))

/-- The columns, in push order. -/
def columns (s : StatStack) : List StatColumn := s.entries.map (·.2)

/-- The names, in push order. -/
def metrics (s : StatStack) : List String := s.entries.map (·.1)

/-- The debug description of a stack. -/
def debug (s : StatStack) : String :=
  "StatStack \x7b metrics: " ++ Quoted.quoteList s.metrics ++ " \x7d"

end StatStack

end GroupStats
