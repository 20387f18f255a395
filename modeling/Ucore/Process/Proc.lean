/-
kern/process/proc.c of lab5: the process tables, and the life of a
process from do_fork to do_wait.

What proc.c calls to get and release memory is a parameter with the
contract the tables need: a block that is allocated was not. Kernel code
is not preempted, so a function runs without interruption up to a call of
`schedule`; do_wait is modelled as its stretches before and after that
call, and do_exit up to it. Functions take the process that runs them,
`current`, as an argument. A NULL pointer that is followed is a panic.
-/
import Ucore.Lib.Call
import Ucore.Libs.List
import Ucore.Process.State
import Mathlib.Data.Set.Insert

namespace Ucore

/-- What proc.c uses of the memory management. -/
structure Memory (ν : Type) where
  State : Type
  /-- A `struct mm_struct *`. -/
  Mm : Type
  /-- The `proc_struct`s that are allocated. -/
  live : State → Set ν
  /-- `kmalloc(sizeof(struct proc_struct))`. -/
  kmalloc : State → Option ν × State
  /-- `kfree`, of a `proc_struct`. -/
  kfree : ν → State → State
  /-- `alloc_pages(KSTACKPAGE)`. -/
  setupKstack : State → Option Nat × State
  /-- `put_kstack`. -/
  putKstack : Nat → State → State
  /-- `copy_mm`: whether it returns 0, and the new process's mm. -/
  copyMm : BitVec 32 → Option Mm → State → Option ((Bool × Option Mm) × State)
  /-- What do_exit does with an mm. -/
  exitMm : Mm → State → Option State
  /-- `user_mem_check`, of a writable `int`. -/
  userMemCheck : Option Mm → Nat → State → Bool
  /-- The store of an `int` through a user address. -/
  storeInt : Option Mm → Nat → Int → State → State
  kmalloc_some : ∀ {σ σ' p}, kmalloc σ = (some p, σ') →
    p ∉ live σ ∧ live σ' = insert p (live σ)
  kmalloc_none : ∀ {σ σ'}, kmalloc σ = (none, σ') → live σ' = live σ
  kfree_live : ∀ p σ, live (kfree p σ) = live σ \ {p}
  setupKstack_live : ∀ σ, live (setupKstack σ).2 = live σ
  putKstack_live : ∀ k σ, live (putKstack k σ) = live σ
  copyMm_live : ∀ {f mm σ r σ'}, copyMm f mm σ = some (r, σ') →
    live σ' = live σ
  exitMm_live : ∀ {mm σ σ'}, exitMm mm σ = some σ' → live σ' = live σ
  storeInt_live : ∀ mm a v σ, live (storeInt mm a v σ) = live σ

namespace Process

open Ring

-- ======================================================== the tables

/-- `struct proc_struct`, less its links and what only the context switch
and the scheduler read. -/
structure ProcStruct (ν μ : Type) where
  state : ProcState
  pid : Int
  kstack : Nat
  parent : Option ν
  mm : Option μ
  /-- `PF_EXITING` in `flags`. -/
  exiting : Bool
  exitCode : Int
  waitState : BitVec 32
  cptr : Option ν
  yptr : Option ν
  optr : Option ν

/-- List entries: the heads `proc_list` and `hash_list[i]`, and the links
of each process. -/
inductive Entry (ν : Type) where
  | procList
  | hashList (i : BitVec 32)
  | listLink (p : ν)
  | hashLink (p : ν)
  deriving DecidableEq

/-- `MAX_PROCESS`. -/
def maxProcess : Int := 4096

/-- `MAX_PID`. -/
def maxPid : Int := maxProcess * 2

/-- `-E_INVAL`. -/
def eInval : Int := -3
/-- `-E_NO_MEM`. -/
def eNoMem : Int := -4
/-- `-E_NO_FREE_PROC`. -/
def eNoFreeProc : Int := -5
/-- `-E_KILLED`. -/
def eKilled : Int := -9

/-- The variables of proc.c, the processes and the memory management. -/
structure State {ν : Type} (A : Memory ν) where
  procs : ν → ProcStruct ν A.Mm
  links : Links (Entry ν)
  nrProcess : Int
  lastPid : Int
  nextSafe : Int
  idleproc : Option ν
  initproc : Option ν
  mem : A.State

variable {ν : Type} [DecidableEq ν] {A : Memory ν}

namespace State

/-- Change the fields of a process. -/
def update (s : State A) (p : ν)
    (f : ProcStruct ν A.Mm → ProcStruct ν A.Mm) : State A :=
  { s with procs := Function.update s.procs p (f (s.procs p)) }

/-- Change the list entries. -/
def setLinks (s : State A) (links : Links (Entry ν)) : State A :=
  { s with links }

end State

/-- A call that works on the processes. -/
abbrev ProcM (A : Memory ν) (α : Type) : Type := Call (State A) α

open Call

/-- Change the fields of a process. -/
def update (p : ν) (f : ProcStruct ν A.Mm → ProcStruct ν A.Mm) :
    ProcM A Unit :=
  modify fun s => s.update p f

/-- `alloc_proc`. -/
def allocProc : ProcM A (Option ν) := do
  let s ← get
  match A.kmalloc s.mem with
  | (none, mem) =>
      modify fun s => { s with mem }
      return none
  | (some proc, mem) =>
      modify fun s => { s with mem }
      update proc fun _ =>
        { state := .uninit, pid := -1, kstack := 0, parent := none
          mm := none, exiting := false
          exitCode := (s.procs proc).exitCode, waitState := 0
          cptr := none, yptr := none, optr := none }
      return some proc

-- ------------------------------------------------------------------ family links

/-- `if (o != NULL) o->yptr = y`. -/
def storeYptr : (o y : Option ν) → ProcM A Unit
  | none, _ => pure ()
  | some o, y => update o fun q => { q with yptr := y }

/-- `set_links`. -/
def setLinks (proc : ν) : ProcM A Unit := do
  modify fun s =>
    s.setLinks (listAdd s.links .procList (.listLink proc))
  update proc fun q => { q with yptr := none }
  let s ← get
  let parent ← ofOption (s.procs proc).parent
  let older := (s.procs parent).cptr
  update proc fun q => { q with optr := older }
  storeYptr older (some proc)
  update parent fun q => { q with cptr := some proc }
  modify fun s => { s with nrProcess := s.nrProcess + 1 }

/-- The `if` of `remove_links` on the younger sibling. -/
def storeOlder (proc : ν) : (y : Option ν) → ProcM A Unit
  | some y => do
      let s ← get
      update y fun q => { q with optr := (s.procs proc).optr }
  | none => do
      let s ← get
      let parent ← ofOption (s.procs proc).parent
      update parent fun q => { q with cptr := (s.procs proc).optr }

/-- `remove_links`. -/
def removeLinks (proc : ν) : ProcM A Unit := do
  modify fun s => s.setLinks (listDel s.links (.listLink proc))
  let s ← get
  storeYptr (s.procs proc).optr (s.procs proc).yptr
  let s ← get
  storeOlder proc (s.procs proc).yptr
  modify fun s => { s with nrProcess := s.nrProcess - 1 }

-- --------------------------------------------------------------------- hash lists

/-- `pid_hashfn`. -/
def pidHashfn (pid : Int) : BitVec 32 :=
  (BitVec.ofInt 32 pid * 0x9e370001) >>> 22

/-- `hash_proc`. -/
def hashProc (proc : ν) : ProcM A Unit :=
  modify fun s =>
    s.setLinks (listAdd s.links (.hashList (pidHashfn (s.procs proc).pid))
      (.hashLink proc))

/-- `unhash_proc`. -/
def unhashProc (proc : ν) : ProcM A Unit :=
  modify fun s => s.setLinks (listDel s.links (.hashLink proc))

/-- `le2proc`, by the link that the entry is. -/
def le2proc : Entry ν → Option ν
  | .listLink p => some p
  | .hashLink p => some p
  | _ => none

/-- The loop of `find_proc`. -/
def findLoop (s : State A) (list : Entry ν) (pid : Int) :
    (fuel : Nat) → (le : Entry ν) → Option (Option ν)
  | 0, _ => none
  | fuel + 1, le =>
      let le := listNext s.links le
      if le ≠ list then
        match le2proc le with
        | none => none
        | some proc =>
            if (s.procs proc).pid = pid then some (some proc)
            else findLoop s list pid fuel le
      else some none

/-- `find_proc`. -/
def findProc (fuel : Nat) (pid : Int) : ProcM A (Option ν) := do
  if 0 < pid ∧ pid < maxPid then
    let s ← get
    let list := Entry.hashList (pidHashfn pid)
    ofOption (findLoop s list pid fuel list)
  else return none

-- ------------------------------------------------------------------------- pids

/-- The inner loop of `get_pid`: `last_pid` and `next_safe` when it ends,
and whether it goes to `repeat`. -/
def pidScan (s : State A) : (fuel : Nat) → (le : Entry ν) →
    (lastPid nextSafe : Int) → Option (Int × Int × Bool)
  | 0, _, _, _ => none
  | fuel + 1, le, lastPid, nextSafe =>
      let le := listNext s.links le
      if le ≠ .procList then
        match le2proc le with
        | none => none
        | some proc =>
            let pid := (s.procs proc).pid
            if pid = lastPid then
              let lastPid := lastPid + 1
              if nextSafe ≤ lastPid then
                some (if maxPid ≤ lastPid then 1 else lastPid, maxPid, true)
              else pidScan s fuel le lastPid nextSafe
            else if lastPid < pid ∧ pid < nextSafe then
              pidScan s fuel le lastPid pid
            else pidScan s fuel le lastPid nextSafe
      else some (lastPid, nextSafe, false)

/-- `get_pid` from `repeat` on. -/
def pidRepeat (s : State A) (fuel : Nat) : (rounds : Nat) →
    (lastPid nextSafe : Int) → Option (Int × Int)
  | 0, _, _ => none
  | rounds + 1, lastPid, nextSafe =>
      match pidScan s fuel .procList lastPid nextSafe with
      | none => none
      | some (lastPid, nextSafe, true) =>
          pidRepeat s fuel rounds lastPid nextSafe
      | some (lastPid, nextSafe, false) => some (lastPid, nextSafe)

/-- `get_pid`. -/
def getPid (fuel : Nat) : ProcM A Int := do
  let s ← get
  let lastPid := s.lastPid + 1
  let (lastPid, nextSafe) ← ofOption <|
    if maxPid ≤ lastPid then pidRepeat s fuel fuel 1 maxPid
    else if s.nextSafe ≤ lastPid then pidRepeat s fuel fuel lastPid maxPid
    else some (lastPid, s.nextSafe)
  modify fun s => { s with lastPid, nextSafe }
  return lastPid

-- ================================================== waking a process

/-- `wakeup_proc`. -/
def wakeupProc (proc : ν) : ProcM A Unit := do
  let s ← get
  assert ((s.procs proc).state ≠ .zombie)
  if (s.procs proc).state ≠ .runnable then
    update proc fun q => { q with state := .runnable, waitState := 0 }

-- =========================================================== do_fork

/-- `do_fork` from `proc = alloc_proc()` on, which overwrites the pointer
to the `proc_struct` allocated just before. -/
def doForkWith (fuel : Nat) (current : ν) (cloneFlags : BitVec 32)
    (proc : ν) : ProcM A Int := do
  update proc fun q => { q with parent := some current }
  let s ← get
  assert ((s.procs current).waitState = 0)
  let (kstack, mem) := A.setupKstack s.mem
  modify fun s => { s with mem }
  match kstack with
  | none =>
      modify fun s => { s with mem := A.kfree proc s.mem }
      return eNoMem
  | some kstack =>
      update proc fun q => { q with kstack }
      let s ← get
      let ((copied, mm), mem) ←
        ofOption (A.copyMm cloneFlags (s.procs current).mm s.mem)
      modify fun s => { s with mem }
      if copied then
        update proc fun q => { q with mm }
        let pid ← getPid fuel
        update proc fun q => { q with pid }
        hashProc proc
        setLinks proc
        wakeupProc proc
        return pid
      else
        modify fun s =>
          { s with mem := A.kfree proc (A.putKstack kstack s.mem) }
        return eNoMem

/-- `do_fork`. When `alloc_proc` fails, the clean-up reads the kernel stack
of `NULL`, or the next statement stores to it. -/
def doFork (fuel : Nat) (current : ν) (cloneFlags : BitVec 32) :
    ProcM A Int := do
  let s ← get
  if maxProcess ≤ s.nrProcess then return eNoFreeProc
  else
    let first ← allocProc
    let _ ← ofOption first
    let second ← allocProc
    let proc ← ofOption second
    doForkWith fuel current cloneFlags proc

-- =========================================================== do_exit

/-- The loop of `do_exit` that hands the children to `initproc`. -/
def reparent (current : ν) : (fuel : Nat) → ProcM A Unit
  | 0 => panic
  | fuel + 1 => do
      let s ← get
      match (s.procs current).cptr with
      | none => pure ()
      | some proc =>
          let initproc ← ofOption s.initproc
          update current fun q => { q with cptr := (s.procs proc).optr }
          update proc fun q => { q with yptr := none }
          let s ← get
          let older := (s.procs initproc).cptr
          update proc fun q => { q with optr := older }
          storeYptr older (some proc)
          update proc fun q => { q with parent := some initproc }
          update initproc fun q => { q with cptr := some proc }
          let s ← get
          if (s.procs proc).state = .zombie
              ∧ (s.procs initproc).waitState = wtChild then
            wakeupProc initproc
          reparent current fuel

/-- `do_exit` up to `schedule`. -/
def doExit (fuel : Nat) (current : ν) (errorCode : Int) : ProcM A Unit := do
  let s ← get
  assert (some current ≠ s.idleproc)
  assert (some current ≠ s.initproc)
  match (s.procs current).mm with
  | some mm =>
      let mem ← ofOption (A.exitMm mm s.mem)
      modify fun s => { s with mem }
      update current fun q => { q with mm := none }
  | none => pure ()
  update current fun q =>
    { q with state := .zombie, exitCode := errorCode }
  let s ← get
  let proc ← ofOption (s.procs current).parent
  if (s.procs proc).waitState = wtChild then wakeupProc proc
  reparent current fuel

-- =========================================================== do_wait

/-- How a stretch of `do_wait` ends: it returns after reaping a child,
with the code it stored, or with `-E_BAD_PROC` or `-E_INVAL`; or it calls
`schedule`, or finds itself killed and exits. -/
inductive Waited (ν : Type) where
  | reaped (proc : ν) (code : Option Int)
  | badProc
  | inval
  | slept
  | killed
  deriving DecidableEq

/-- The loop of `do_wait` over the children: whether there is one, and the
first ZOMBIE. -/
def waitLoop (s : State A) :
    (fuel : Nat) → (proc : Option ν) → Option (Bool × Option ν)
  | _, none => some (false, none)
  | 0, some _ => none
  | fuel + 1, some proc =>
      if (s.procs proc).state = .zombie then some (true, some proc)
      else
        match waitLoop s fuel (s.procs proc).optr with
        | none => none
        | some (_, found) => some (true, found)

/-- What `do_wait` finds: whether there is a child, and a ZOMBIE. -/
def waitScan (fuel : Nat) (current : ν) (pid : Int) :
    ProcM A (Bool × Option ν) := do
  if pid ≠ 0 then
    let proc ← findProc fuel pid
    let s ← get
    match proc with
    | none => return (false, none)
    | some proc =>
        if (s.procs proc).parent = some current then
          if (s.procs proc).state = .zombie then return (true, some proc)
          else return (true, none)
        else return (false, none)
  else
    let s ← get
    ofOption (waitLoop s fuel (s.procs current).cptr)

/-- `do_wait` from `found` on. -/
def waitFound (current : ν) (codeStore : Option Nat) (proc : ν) :
    ProcM A (Waited ν) := do
  let s ← get
  assert (some proc ≠ s.idleproc ∧ some proc ≠ s.initproc)
  let code := (s.procs proc).exitCode
  match codeStore with
  | some a =>
      modify fun s =>
        { s with mem := A.storeInt (s.procs current).mm a code s.mem }
  | none => pure ()
  unhashProc proc
  removeLinks proc
  modify fun s =>
    { s with
      mem := A.kfree proc (A.putKstack (s.procs proc).kstack s.mem) }
  return .reaped proc (codeStore.map fun _ => code)

/-- `do_wait` from `repeat` to the call of `schedule`. -/
def waitRepeat (fuel : Nat) (current : ν) (pid : Int)
    (codeStore : Option Nat) : ProcM A (Waited ν) := do
  let (haskid, found) ← waitScan fuel current pid
  match found with
  | some proc => waitFound current codeStore proc
  | none =>
      if haskid then
        update current fun q =>
          { q with state := .sleeping, waitState := wtChild }
        return .slept
      else return .badProc

/-- `do_wait` up to the first call of `schedule`. -/
def doWait (fuel : Nat) (current : ν) (pid : Int)
    (codeStore : Option Nat) : ProcM A (Waited ν) := do
  let s ← get
  let ok := match codeStore with
    | some a => A.userMemCheck (s.procs current).mm a s.mem
    | none => true
  if ok then waitRepeat fuel current pid codeStore
  else return .inval

/-- `do_wait` after `schedule`. -/
def waitResume (fuel : Nat) (current : ν) (pid : Int)
    (codeStore : Option Nat) : ProcM A (Waited ν) := do
  let s ← get
  if (s.procs current).exiting then
    doExit fuel current eKilled
    return .killed
  else waitRepeat fuel current pid codeStore

-- =========================================================== do_kill

/-- `do_kill`. -/
def doKill (fuel : Nat) (pid : Int) : ProcM A Int := do
  let proc ← findProc fuel pid
  match proc with
  | none => return eInval
  | some proc =>
      let s ← get
      if (s.procs proc).exiting then return eKilled
      else
        update proc fun q => { q with exiting := true }
        if (s.procs proc).waitState &&& wtInterrupted ≠ 0 then
          wakeupProc proc
        return 0

-- ========================================================= proc_init

/-- `proc_init`: the processes idle and init. The hash lists are
initialised one after the other. -/
def procInit (fuel bootstack : Nat) : ProcM A Unit := do
  modify fun s => s.setLinks (listInit s.links .procList)
  modify fun s => s.setLinks <|
    (List.range 1024).foldl
      (fun m i => listInit m (.hashList (BitVec.ofNat 32 i))) s.links
  let proc ← allocProc
  let idle ← ofOption proc
  modify fun s => { s with idleproc := some idle }
  update idle fun q =>
    { q with pid := 0, state := .runnable, kstack := bootstack }
  modify fun s => { s with nrProcess := s.nrProcess + 1 }
  let pid ← doFork fuel idle 0x00000100
  assert (0 < pid)
  let initproc ← findProc fuel pid
  modify fun s => { s with initproc }
  let s ← get
  let init ← ofOption s.initproc
  assert ((s.procs idle).pid = 0 ∧ (s.procs init).pid = 1)

end Process

end Ucore
