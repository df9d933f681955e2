import GroupStats.Error

/-!
# Aggregation kernels

A kernel turns the snapshots of one round into its split outputs. The portable kernel merges
the shards' streams and splits the merged stream by term; it is the one used when no other
is installed. One kernel at a time can be installed for the whole engine.
-/

namespace GroupStats

/-- The kernels of the engine. -/
inductive Kernel where
  | portable
  deriving DecidableEq, Repr

/-- The name of a kernel. -/
def Kernel.name : Kernel → String
  | .portable => "portable"

/-- The kernel installed for the whole engine, if any. -/
structure KernelSlot where
  installed : Option Kernel := none
  deriving DecidableEq, Repr

namespace KernelSlot

/-- The kernel rounds use: the installed one, or the portable kernel. -/
def current (s : KernelSlot) : Kernel := s.installed.getD .portable

/-- Installs a kernel; fails when one is installed already. -/
def install (s : KernelSlot) (k : Kernel) : Except Error KernelSlot :=
  match s.installed with
  | some old => .error (.configuration (.kernelInstalled old.name))
  | none => .ok { installed := some k }

/-- Removes the installed kernel; tells whether there was one. -/
def remove (s : KernelSlot) : KernelSlot × Bool := ({}, s.installed.isSome)

end KernelSlot

end GroupStats
