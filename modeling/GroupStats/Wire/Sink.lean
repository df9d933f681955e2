import GroupStats.Step
import GroupStats.Bytes

/-!
# Byte sinks

A sink takes the bytes a writer drains into it. Its state lives in some `σ`, and an `Outlet`
gives its three operations there: take bytes, flush, and end the stream. A sink in memory
keeps every byte; a file opened for reading only refuses every write.
-/

namespace GroupStats

/-- The operations of a sink whose state is a `σ`. -/
structure Outlet (σ : Type) where
  write : Bytes → Step σ Unit
  flush : Step σ Unit
  close : Step σ Unit

namespace Outlet

/-- A sink in memory: its state is the bytes it holds, and every write appends. -/
def memory : Outlet Bytes where
  write data := modify (· ++ data)
  flush := pure ()
  close := pure ()

/-- A file opened for reading only: every write fails, flushing and closing succeed. -/
def readOnly : Outlet σ where
  write _ := throw (.io .badDescriptor)
  flush := pure ()
  close := pure ()

end Outlet

end GroupStats
