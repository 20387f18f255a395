/-
kern/process/proc.h: the states of a process.
-/
import Mathlib.Logic.Basic

namespace Ucore

/-- `enum proc_state`. -/
inductive ProcState where
  | uninit
  | sleeping
  | runnable
  | zombie
  deriving DecidableEq, Repr

/-- `WT_INTERRUPTED`: the bit of the wait states that others may end. -/
def wtInterrupted : BitVec 32 := 0x80000000

/-- `WT_CHILD`. -/
def wtChild : BitVec 32 := 0x00000001 ||| wtInterrupted

end Ucore
