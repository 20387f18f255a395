/-
kern/schedule/sched.c of lab6, and what kern/process/proc.c of lab6 changes of
the run queue.

The functions of proc.c are those of lab5 but for `wakeup_proc` and
`schedule`; those that call neither are taken from there. Interrupts are off in
the functions of sched.c. They may come between any two calls, also before a
process that is about to call `schedule` does so. The loops of the heap take
fuel.
-/
import Ucore.Process.System
import Ucore.Sched.DefaultSched

namespace Ucore.Schedule

open Call Process

variable {ν : Type} [DecidableEq ν] {A : Memory ν}

/-- The variables of proc.c and of sched.c. `current` is first read when
`proc_init` has set it. -/
structure Kernel (A : Memory ν) where
  tables : State A
  current : ν
  sched : Sched.Sched ν

/-- A call that works on the processes and the run queue. -/
abbrev KernelM (A : Memory ν) (α : Type) : Type := Call (Kernel A) α

/-- A call that does not use the run queue. -/
def onTables {α : Type} (m : ProcM A α) : KernelM A α := fun k =>
  match m k.tables with
  | none => none
  | some (a, s) => some (a, { k with tables := s })

/-- A call of the scheduling class. -/
def onSched (f : Sched.Sched ν → Option (Sched.Sched ν)) : KernelM A Unit :=
  fun k =>
    match f k.sched with
    | none => none
    | some s => some ((), { k with sched := s })

/-- A store to `need_resched`. -/
def setNeedResched (proc : ν) (b : Bool) : KernelM A Unit :=
  modify fun k => { k with
    sched := k.sched.setProc proc
      { k.sched.procs proc with needResched := b } }

-- =========================================================== sched.c

/-- `sched_class_enqueue`. -/
def schedClassEnqueue (fuel : Nat) (proc : ν) : KernelM A Unit := do
  let s ← onTables get
  if some proc ≠ s.idleproc then onSched (Sched.strideEnqueue fuel proc)

/-- `sched_class_dequeue`. -/
def schedClassDequeue (fuel : Nat) (proc : ν) : KernelM A Unit :=
  onSched (Sched.strideDequeue fuel proc)

/-- `sched_class_pick_next`. A priority of 0, which `alloc_proc` may leave, is
divided by: what that gives is `quotient`. -/
def schedClassPickNext (quotient : BitVec 32) : KernelM A (Option ν) := fun k =>
  match Sched.stridePickNext k.sched with
  | some (next, s) => some (next, { k with sched := s })
  | none =>
      match k.sched.rq.lab6RunPool with
      | none => some (none, k)
      | some proc =>
          let p := k.sched.procs proc
          some (some proc, { k with
            sched := k.sched.setProc proc
              { p with lab6Stride := p.lab6Stride + quotient } })

/-- `sched_class_proc_tick`. -/
def schedClassProcTick (proc : ν) : KernelM A Unit := do
  let s ← onTables get
  if some proc ≠ s.idleproc then
    onSched fun s => some (Sched.strideProcTick proc s)
  else setNeedResched proc true

/-- `sched_init`. -/
def schedInit (maxTimeSlice : Int) : KernelM A Unit :=
  onSched fun s =>
    some (Sched.strideInit { s with rq := { s.rq with maxTimeSlice } })

/-- `wakeup_proc`. -/
def wakeupProc (fuel : Nat) (proc : ν) : KernelM A Unit := do
  let s ← onTables get
  assert ((s.procs proc).state ≠ .zombie)
  if (s.procs proc).state ≠ .runnable then
    onTables <| Process.update proc fun q =>
      { q with state := .runnable, waitState := 0 }
    let k ← get
    if proc ≠ k.current then schedClassEnqueue fuel proc

/-- `proc_run`. -/
def procRun (proc : ν) : KernelM A Unit :=
  modify fun k => { k with current := proc }

/-- `schedule`. -/
def schedule (fuel : Nat) (quotient : BitVec 32) : KernelM A Unit := do
  let k ← get
  setNeedResched k.current false
  if (k.tables.procs k.current).state = .runnable then
    schedClassEnqueue fuel k.current
  let next ← schedClassPickNext quotient
  match next with
  | some next => do
      schedClassDequeue fuel next
      procRun next
  | none => do
      let s ← onTables get
      let idle ← ofOption s.idleproc
      procRun idle

-- ============================================================ proc.c

/-- `alloc_proc`: of the fields of the scheduler it sets `need_resched`
only. -/
def allocProc : KernelM A (Option ν) := do
  let proc ← onTables Process.allocProc
  match proc with
  | some p => do
      setNeedResched p false
      return some p
  | none => return none

/-- `do_fork` from `proc = alloc_proc()` on. -/
def doForkWith (fuel : Nat) (current : ν) (cloneFlags : BitVec 32)
    (proc : ν) : KernelM A Int := do
  onTables <| Process.update proc fun q => { q with parent := some current }
  let s ← onTables get
  assert ((s.procs current).waitState = 0)
  let (kstack, mem) := A.setupKstack s.mem
  onTables <| modify fun s => { s with mem }
  match kstack with
  | none => do
      onTables <| modify fun s => { s with mem := A.kfree proc s.mem }
      return eNoMem
  | some kstack => do
      onTables <| Process.update proc fun q => { q with kstack }
      let s ← onTables get
      let ((copied, mm), mem) ←
        ofOption (A.copyMm cloneFlags (s.procs current).mm s.mem)
      onTables <| modify fun s => { s with mem }
      if copied then
        onTables <| Process.update proc fun q => { q with mm }
        let pid ← onTables (getPid fuel)
        onTables <| Process.update proc fun q => { q with pid }
        onTables (hashProc proc)
        onTables (setLinks proc)
        wakeupProc fuel proc
        return pid
      else
        onTables <| modify fun s =>
          { s with mem := A.kfree proc (A.putKstack kstack s.mem) }
        return eNoMem

/-- `do_fork`. -/
def doFork (fuel : Nat) (current : ν) (cloneFlags : BitVec 32) :
    KernelM A Int := do
  let s ← onTables get
  if maxProcess ≤ s.nrProcess then return eNoFreeProc
  else
    let first ← allocProc
    let _ ← ofOption first
    let second ← allocProc
    let proc ← ofOption second
    doForkWith fuel current cloneFlags proc

/-- The loop of `do_exit` that hands the children to `initproc`. -/
def reparent (heap : Nat) (current : ν) : (fuel : Nat) → KernelM A Unit
  | 0 => panic
  | fuel + 1 => do
      let s ← onTables get
      match (s.procs current).cptr with
      | none => pure ()
      | some proc => do
          let initproc ← ofOption s.initproc
          onTables <| Process.update current fun q =>
            { q with cptr := (s.procs proc).optr }
          onTables <| Process.update proc fun q => { q with yptr := none }
          let s ← onTables get
          let older := (s.procs initproc).cptr
          onTables <| Process.update proc fun q => { q with optr := older }
          onTables (storeYptr older (some proc))
          onTables <| Process.update proc fun q =>
            { q with parent := some initproc }
          onTables <| Process.update initproc fun q =>
            { q with cptr := some proc }
          let s ← onTables get
          if (s.procs proc).state = .zombie
              ∧ (s.procs initproc).waitState = wtChild then
            wakeupProc heap initproc
          reparent heap current fuel

/-- `do_exit` up to `schedule`. -/
def doExit (fuel : Nat) (current : ν) (errorCode : Int) :
    KernelM A Unit := do
  let s ← onTables get
  assert (some current ≠ s.idleproc)
  assert (some current ≠ s.initproc)
  match (s.procs current).mm with
  | some mm => do
      let mem ← ofOption (A.exitMm mm s.mem)
      onTables <| modify fun s => { s with mem }
      onTables <| Process.update current fun q => { q with mm := none }
  | none => pure ()
  onTables <| Process.update current fun q =>
    { q with state := .zombie, exitCode := errorCode }
  let s ← onTables get
  let proc ← ofOption (s.procs current).parent
  if (s.procs proc).waitState = wtChild then wakeupProc fuel proc
  reparent fuel current fuel

/-- `do_wait` up to the first call of `schedule`. -/
def doWait (fuel : Nat) (current : ν) (pid : Int)
    (codeStore : Option Nat) : KernelM A (Waited ν) :=
  onTables (Process.doWait fuel current pid codeStore)

/-- `do_wait` after `schedule`. -/
def waitResume (fuel : Nat) (current : ν) (pid : Int)
    (codeStore : Option Nat) : KernelM A (Waited ν) := do
  let s ← onTables get
  if (s.procs current).exiting then do
    doExit fuel current eKilled
    return .killed
  else onTables (waitRepeat fuel current pid codeStore)

/-- `do_kill`. -/
def doKill (fuel : Nat) (pid : Int) : KernelM A Int := do
  let proc ← onTables (findProc fuel pid)
  match proc with
  | none => return eInval
  | some proc => do
      let s ← onTables get
      if (s.procs proc).exiting then return eKilled
      else
        onTables <| Process.update proc fun q => { q with exiting := true }
        if (s.procs proc).waitState &&& wtInterrupted ≠ 0 then
          wakeupProc fuel proc
        return 0

/-- `proc_init`. -/
def procInit (fuel bootstack : Nat) : KernelM A Unit := do
  onTables <| modify fun s => s.setLinks (listInit s.links .procList)
  onTables <| modify fun s => s.setLinks <|
    (List.range 1024).foldl
      (fun m i => listInit m (.hashList (BitVec.ofNat 32 i))) s.links
  let proc ← allocProc
  let idle ← ofOption proc
  onTables <| modify fun s => { s with idleproc := some idle }
  onTables <| Process.update idle fun q =>
    { q with pid := 0, state := .runnable, kstack := bootstack }
  setNeedResched idle true
  onTables <| modify fun s => { s with nrProcess := s.nrProcess + 1 }
  modify fun k => { k with current := idle }
  let pid ← doFork fuel idle 0x00000100
  assert (0 < pid)
  let initproc ← onTables (findProc fuel pid)
  onTables <| modify fun s => { s with initproc }
  let s ← onTables get
  let init ← ofOption s.initproc
  assert ((s.procs idle).pid = 0 ∧ (s.procs init).pid = 1)

-- ============================================================== runs

/-- The kernel, the arguments of the processes that are in do_wait, and
whether the current process is about to call `schedule` in do_wait or
do_exit. -/
structure World (A : Memory ν) where
  kernel : Kernel A
  waits : ν → Option (Int × Option Nat)
  leaving : Bool

/-- A call, of the current process but for `wakeup`. -/
inductive Label (ν : Type) where
  | fork (cloneFlags : BitVec 32) (ret : Int)
  | exit (errorCode : Int)
  | wait (pid : Int) (codeStore : Option Nat) (r : Waited ν)
  | resume (r : Waited ν)
  | kill (pid ret : Int)
  | user
  | wakeup (p : ν)
  | schedule
  | tick
  | setPriority (priority : BitVec 32)

/-- The current process is free to make calls: it is not in do_wait or
do_exit, and is not idle, which only calls `schedule`. -/
structure Free (w : World A) : Prop where
  leaving : w.leaving = false
  waits : w.waits w.kernel.current = none
  idle : w.kernel.tables.idleproc ≠ some w.kernel.current

/-- One call. Any process of the tables may be woken up at any time, and any
process may be made to call `schedule`. -/
inductive Step : World A → Label ν → World A → Prop
  | fork {w : World A} {fuel : Nat} {flags : BitVec 32} {ret : Int}
      {k : Kernel A} (hfree : Free w)
      (hcall : doFork fuel w.kernel.current flags w.kernel = some (ret, k)) :
      Step w (.fork flags ret) { w with kernel := k }
  | exit {w : World A} {fuel : Nat} {code : Int} {u : Unit} {k : Kernel A}
      (hfree : Free w)
      (hcall : doExit fuel w.kernel.current code w.kernel = some (u, k)) :
      Step w (.exit code) { w with kernel := k, leaving := true }
  | wait {w : World A} {fuel : Nat} {pid : Int} {codeStore : Option Nat}
      {r : Waited ν} {k : Kernel A} (hfree : Free w)
      (hcall : doWait fuel w.kernel.current pid codeStore w.kernel
        = some (r, k)) :
      Step w (.wait pid codeStore r)
        { kernel := k
          waits := if r = .slept then
              Function.update w.waits w.kernel.current (some (pid, codeStore))
            else w.waits
          leaving := decide (r = .slept) }
  | resume {w : World A} {fuel : Nat} {pid : Int} {codeStore : Option Nat}
      {r : Waited ν} {k : Kernel A} (hleaving : w.leaving = false)
      (hpc : w.waits w.kernel.current = some (pid, codeStore))
      (hcall : waitResume fuel w.kernel.current pid codeStore w.kernel
        = some (r, k)) :
      Step w (.resume r)
        { kernel := k
          waits := if r = .slept then w.waits
            else Function.update w.waits w.kernel.current none
          leaving := decide (r = .slept ∨ r = .killed) }
  | kill {w : World A} {fuel : Nat} {pid ret : Int} {k : Kernel A}
      (hfree : Free w) (hcall : doKill fuel pid w.kernel = some (ret, k)) :
      Step w (.kill pid ret) { w with kernel := k }
  | user {w : World A} {mm : Option A.Mm} {mem : A.State} (hfree : Free w)
      (hlive : A.live mem = A.live w.kernel.tables.mem) :
      Step w .user { w with kernel := { w.kernel with
        tables := { w.kernel.tables.update w.kernel.current
          fun q => { q with mm } with mem } } }
  | wakeup {w : World A} {fuel : Nat} {p : ν} {u : Unit} {k : Kernel A}
      (hp : w.kernel.tables.idleproc = some p ∨ Listed w.kernel.tables p)
      (hcall : wakeupProc fuel p w.kernel = some (u, k)) :
      Step w (.wakeup p) { w with kernel := k }
  | schedule {w : World A} {fuel : Nat} {quotient : BitVec 32} {u : Unit}
      {k : Kernel A}
      (hcall : schedule fuel quotient w.kernel = some (u, k)) :
      Step w .schedule { w with kernel := k, leaving := false }
  | tick {w : World A} {u : Unit} {k : Kernel A}
      (hcall : schedClassProcTick w.kernel.current w.kernel = some (u, k)) :
      Step w .tick { w with kernel := k }
  | setPriority {w : World A} {priority : BitVec 32} (hfree : Free w) :
      Step w (.setPriority priority) { w with kernel := { w.kernel with
        sched := Sched.lab6SetPriority w.kernel.current priority
          w.kernel.sched } }

/-- The kernel after sched_init and proc_init, whose variables have their
initial values. -/
structure Start (w : World A) : Prop where
  init : ∃ (k k' : Kernel A) (u : Unit) (fuel bootstack : Nat) (slice : Int),
    k.tables.nrProcess = 0 ∧ k.tables.lastPid = maxPid
      ∧ k.tables.nextSafe = maxPid ∧ k.tables.idleproc = none
      ∧ k.tables.initproc = none
      ∧ schedInit slice k = some (u, k')
      ∧ procInit fuel bootstack k' = some ((), w.kernel)
  waits : ∀ p, w.waits p = none
  leaving : w.leaving = false

/-- The run pool is a heap of the RUNNABLE processes but idle and the current
one, each once, and `proc_num` their number. -/
def Consistent (k : Kernel A) : Prop :=
  ∃ t, Root k.sched.pool k.sched.rq.lab6RunPool t
    ∧ k.sched.rq.procNum.toNat = (SkewHeap.nodes t).length
    ∧ ∀ p, p ∈ SkewHeap.nodes t ↔ Listed k.tables p
      ∧ (k.tables.procs p).state = .runnable
      ∧ k.tables.idleproc ≠ some p ∧ p ≠ k.current

end Ucore.Schedule
