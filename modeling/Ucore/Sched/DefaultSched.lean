/-
kern/schedule/default_sched.c of lab6: the stride scheduler, and
lab6_set_priority of kern/process/proc.c.

A process is named by its `struct proc_struct`, of which the fields the
scheduler uses are kept. There is one run queue. The list `run_list`, which
only `stride_init` touches, is left out.
-/
import Ucore.Libs.SkewHeap

namespace Ucore.Sched

variable {ν : Type} [DecidableEq ν]

/-- `BIG_STRIDE`. -/
def bigStride : BitVec 32 := -1

/-- The scheduling fields of `struct proc_struct`. `rq` is whether it points
to the run queue. -/
structure Proc where
  needResched : Bool
  rq : Bool
  timeSlice : Int
  lab6Stride : BitVec 32
  lab6Priority : BitVec 32

/-- `struct run_queue`. -/
structure RunQueue (ν : Type) where
  procNum : BitVec 32
  maxTimeSlice : Int
  lab6RunPool : Option ν

/-- The processes, their heap entries and the run queue. -/
structure Sched (ν : Type) where
  procs : ν → Proc
  pool : Pool ν
  rq : RunQueue ν

/-- A store to the fields of a process. -/
def Sched.setProc (s : Sched ν) (proc : ν) (p : Proc) : Sched ν :=
  { s with procs := Function.update s.procs proc p }

/-- `proc_stride_comp_f`. -/
def procStrideCompF (procs : ν → Proc) (a b : ν) : Int :=
  let c := ((procs a).lab6Stride - (procs b).lab6Stride).toInt
  if 0 < c then 1
  else if c = 0 then 0
  else -1

/-- `stride_init`. -/
def strideInit (s : Sched ν) : Sched ν :=
  { s with rq := { s.rq with lab6RunPool := none, procNum := 0 } }

/-- `stride_enqueue`. -/
def strideEnqueue (fuel : Nat) (proc : ν) (s : Sched ν) :
    Option (Sched ν) :=
  match skewHeapInsert (procStrideCompF s.procs) fuel s.rq.lab6RunPool proc
      s.pool with
  | none => none
  | some (root, pool) =>
      let p := s.procs proc
      let slice :=
        if p.timeSlice = 0 ∨ s.rq.maxTimeSlice < p.timeSlice then
          s.rq.maxTimeSlice
        else p.timeSlice
      some
        { procs := Function.update s.procs proc
            { p with timeSlice := slice, rq := true }
          pool := pool
          rq := { s.rq with
            lab6RunPool := root, procNum := s.rq.procNum + 1 } }

/-- `stride_dequeue`. -/
def strideDequeue (fuel : Nat) (proc : ν) (s : Sched ν) :
    Option (Sched ν) :=
  match skewHeapRemove (procStrideCompF s.procs) fuel s.rq.lab6RunPool proc
      s.pool with
  | none => none
  | some (root, pool) =>
      some { s with
        pool := pool
        rq := { s.rq with
          lab6RunPool := root, procNum := s.rq.procNum - 1 } }

/-- `stride_pick_next`. Dividing by a priority of 0 has no result. -/
def stridePickNext (s : Sched ν) : Option (Option ν × Sched ν) :=
  match s.rq.lab6RunPool with
  | none => some (none, s)
  | some proc =>
      let p := s.procs proc
      if p.lab6Priority = 0 then none
      else
        let stride := p.lab6Stride + bigStride / p.lab6Priority
        some (some proc, s.setProc proc { p with lab6Stride := stride })

/-- `stride_proc_tick`. -/
def strideProcTick (proc : ν) (s : Sched ν) : Sched ν :=
  let p := s.procs proc
  let slice := if 0 < p.timeSlice then p.timeSlice - 1 else p.timeSlice
  let p := { p with timeSlice := slice }
  s.setProc proc (if slice = 0 then { p with needResched := true } else p)

/-- `lab6_set_priority`, called by process `proc`. -/
def lab6SetPriority (proc : ν) (priority : BitVec 32) (s : Sched ν) :
    Sched ν :=
  s.setProc proc { s.procs proc with
    lab6Priority := if priority = 0 then 1 else priority }

end Ucore.Sched
