/-
kern/sync/wait.c of lab7: wait queues, and the fields of a process that
waiting and waking it up change.

A thread has at most one `wait_t` in a queue, the `__wait` on the stack of
the call it is blocked in, so the records are indexed by threads. Queues
are indexed by what holds them. Each function here runs with interrupts
disabled.

kern/sync/sem.c of lab7: counting semaphores.

`__down` calls `schedule` between two stretches with interrupts disabled.
It is modelled as the two stretches, `__downEnter` and `__downLeave`; the
thread is in `schedule` from the first, when that blocked, to the second.
-/
import Ucore.Lib.Call
import Ucore.Libs.List
import Ucore.Process.State
import Mathlib.Algebra.Group.Int.Defs

namespace Ucore.Sync

open Ring

-- ========================================================= processes

/-- The fields of a `proc_struct` that waiting changes. -/
structure Proc where
  state : ProcState
  waitState : BitVec 32
  deriving DecidableEq

/-- `WT_TIMER`. -/
def wtTimer : BitVec 32 := 0x00000002 ||| wtInterrupted

/-- `WT_KSEM`. -/
def wtKsem : BitVec 32 := 0x00000100

-- ======================================================= wait queues

/-- The list entries: the `wait_head` of a queue and the `wait_link` of a
thread's `wait_t`. -/
inductive Entry (σ ν : Type) where
  | waitHead (s : σ)
  | waitLink (t : ν)
  deriving DecidableEq

/-- `wait_t`, less its link. -/
structure Wait (σ ν : Type) where
  proc : Option ν
  wakeupFlags : BitVec 32
  waitQueue : Option σ

/-- The semaphores, the records of waiting threads and the processes. -/
structure State (σ ν : Type) where
  value : σ → Int
  links : Links (Entry σ ν)
  waits : ν → Wait σ ν
  procs : ν → Proc

variable {σ ν : Type} [DecidableEq σ] [DecidableEq ν]

namespace State

/-- Change the links. -/
def setLinks (m : State σ ν) (links : Links (Entry σ ν)) : State σ ν :=
  { m with links }

/-- Store a thread's `wait_t`. -/
def setWait (m : State σ ν) (t : ν) (w : Wait σ ν) : State σ ν :=
  { m with waits := Function.update m.waits t w }

/-- Store a process's fields. -/
def setProc (m : State σ ν) (t : ν) (p : Proc) : State σ ν :=
  { m with procs := Function.update m.procs t p }

/-- Store the value of a semaphore. -/
def setValue (m : State σ ν) (s : σ) (v : Int) : State σ ν :=
  { m with value := Function.update m.value s v }

end State

/-- A call that works on the semaphores. -/
abbrev SyncM (σ ν α : Type) : Type := Call (State σ ν) α

open Call

/-- `wait_init`. -/
def waitInit (wait proc : ν) : SyncM σ ν Unit :=
  modify fun m =>
    ((m.setWait wait { m.waits wait with
        proc := some proc, wakeupFlags := wtInterrupted }).setLinks
      (listInit m.links (.waitLink wait)))

/-- `wait_queue_init`. -/
def waitQueueInit (queue : σ) : SyncM σ ν Unit :=
  modify fun m => m.setLinks (listInit m.links (.waitHead queue))

/-- `wait_queue_add`. -/
def waitQueueAdd (queue : σ) (wait : ν) : SyncM σ ν Unit := do
  let m ← get
  assert (listEmpty m.links (.waitLink wait)
    ∧ (m.waits wait).proc.isSome = true)
  modify fun m =>
    ((m.setWait wait { m.waits wait with waitQueue := some queue }).setLinks
      (listAddBefore m.links (.waitHead queue) (.waitLink wait)))

/-- `wait_queue_del`. -/
def waitQueueDel (queue : σ) (wait : ν) : SyncM σ ν Unit := do
  let m ← get
  assert (¬ listEmpty m.links (.waitLink wait)
    ∧ (m.waits wait).waitQueue = some queue)
  modify fun m => m.setLinks (listDelInit m.links (.waitLink wait))

/-- `le2wait`: only the link of a `wait_t` lies inside one. -/
def le2wait : Entry σ ν → SyncM σ ν ν
  | .waitLink t => pure t
  | .waitHead _ => panic

/-- `wait_queue_first`. -/
def waitQueueFirst (queue : σ) : SyncM σ ν (Option ν) := do
  let m ← get
  let le := listNext m.links (.waitHead queue)
  if le ≠ .waitHead queue then
    let wait ← le2wait le
    return some wait
  else
    return none

/-- `wait_in_queue`. -/
def waitInQueue (wait : ν) : SyncM σ ν Bool := do
  let m ← get
  return !listEmpty m.links (.waitLink wait)

-- ================================================== waking a process

/-- `wakeup_proc`. The run queue that the process enters decides who runs
next, and any runnable process may. -/
def wakeupProc (proc : ν) : SyncM σ ν Unit := do
  let m ← get
  assert ((m.procs proc).state ≠ .zombie)
  if (m.procs proc).state ≠ .runnable then
    modify fun m => m.setProc proc { state := .runnable, waitState := 0 }

/-- `wakeup_wait`. -/
def wakeupWait (queue : σ) (wait : ν) (wakeupFlags : BitVec 32) (del : Bool) :
    SyncM σ ν Unit := do
  if del then
    waitQueueDel queue wait
  modify fun m => m.setWait wait { m.waits wait with wakeupFlags }
  let m ← get
  let proc ← ofOption (m.waits wait).proc
  wakeupProc proc

/-- `wait_current_set`, by the thread `current`. -/
def waitCurrentSet (current : ν) (queue : σ) (waitState : BitVec 32) :
    SyncM σ ν Unit := do
  waitInit current current
  modify fun m => m.setProc current { state := .sleeping, waitState }
  waitQueueAdd queue current

/-- `wait_current_del`. -/
def waitCurrentDel (queue : σ) (wait : ν) : SyncM σ ν Unit := do
  let queued ← waitInQueue wait
  if queued then
    waitQueueDel queue wait

end Ucore.Sync

namespace Ucore.Sync

open Call

variable {σ ν : Type} [DecidableEq σ] [DecidableEq ν]

/-- The largest `int`. -/
def intMax : Int := 2 ^ 31 - 1

/-- `sem->value ++`. There is no result past the largest `int`. -/
def valueInc (sem : σ) : SyncM σ ν Unit := do
  let m ← get
  assert (m.value sem < intMax)
  modify fun m => m.setValue sem (m.value sem + 1)

/-- `sem->value --`, where the value is positive. -/
def valueDec (sem : σ) : SyncM σ ν Unit :=
  modify fun m => m.setValue sem (m.value sem - 1)

/-- `sem_init`. -/
def semInit (sem : σ) (value : Int) : SyncM σ ν Unit := do
  modify fun m => m.setValue sem value
  waitQueueInit sem

/-- `__up`. -/
def _up (sem : σ) (waitState : BitVec 32) : SyncM σ ν Unit := do
  let first ← waitQueueFirst sem
  match first with
  | none => valueInc sem
  | some wait =>
      let m ← get
      let proc ← ofOption (m.waits wait).proc
      assert ((m.procs proc).waitState = waitState)
      wakeupWait sem wait waitState true

/-- `__down` up to `schedule`; `true` when it returns 0 at once. -/
def _downEnter (current : ν) (sem : σ) (waitState : BitVec 32) :
    SyncM σ ν Bool := do
  let m ← get
  if 0 < m.value sem then
    valueDec sem
    return true
  else
    waitCurrentSet current sem waitState
    return false

/-- `__down` from `schedule` on: the flags it returns. -/
def _downLeave (current : ν) (sem : σ) (waitState : BitVec 32) :
    SyncM σ ν (BitVec 32) := do
  waitCurrentDel sem current
  let m ← get
  if (m.waits current).wakeupFlags ≠ waitState then
    return (m.waits current).wakeupFlags
  else
    return 0

/-- `up`. -/
def up (sem : σ) : SyncM σ ν Unit := _up sem wtKsem

/-- `down` up to `schedule`; `true` when it returns at once. -/
def downEnter (current : ν) (sem : σ) : SyncM σ ν Bool :=
  _downEnter current sem wtKsem

/-- `down` from `schedule` on. -/
def downLeave (current : ν) (sem : σ) : SyncM σ ν Unit := do
  let flags ← _downLeave current sem wtKsem
  assert (flags = 0)

/-- `try_down`. -/
def tryDown (sem : σ) : SyncM σ ν Bool := do
  let m ← get
  if 0 < m.value sem then
    valueDec sem
    return true
  else
    return false

end Ucore.Sync
