/-
Processes running: do_fork, do_exit, do_wait and do_kill called by any
process in any order, and proc_init before them.

A process that runs is RUNNABLE and on proc_list, or is idle; the
scheduler may pick any. One that called `schedule` in do_wait goes on
there when it is picked. What else a process does changes its memory only.

kern/schedule/sched.c of lab5: the round-robin scheduler.

One process runs at a time. It makes its calls one after the other, and
calls `schedule` to let another run: when it exits or sleeps, and whenever
it returns from a trap with `need_resched` set. Idle only calls `schedule`.
-/
import Ucore.Lib.Run
import Ucore.Process.Proc

namespace Ucore.Process

open Ring

variable {ν : Type} [DecidableEq ν]

/-- The kernel, and the arguments of the processes that are in do_wait,
past the call of `schedule`. -/
structure World (A : Memory ν) where
  kernel : State A
  waits : ν → Option (Int × Option Nat)

/-- A call, the process that makes it and what it returns. -/
inductive Label (ν : Type) where
  | fork (p : ν) (cloneFlags : BitVec 32) (ret : Int)
  | exit (p : ν) (errorCode : Int)
  | wait (p : ν) (pid : Int) (codeStore : Option Nat) (r : Waited ν)
  | resume (p : ν) (r : Waited ν)
  | kill (p : ν) (pid ret : Int)
  | user (p : ν)
  deriving DecidableEq

variable {A : Memory ν}

/-- The process is on proc_list. -/
def Listed (s : State A) (p : ν) : Prop :=
  ∃ L : List ν, IsRing s.links .procList (L.map .listLink) ∧ p ∈ L

/-- The process can be picked to run. -/
structure Runs (s : State A) (p : ν) : Prop where
  listed : s.idleproc = some p ∨ Listed s p
  state : (s.procs p).state = .runnable

/-- One call of a process that runs. -/
inductive Step : World A → Label ν → World A → Prop
  | fork {w : World A} {p : ν} {fuel : Nat} {flags : BitVec 32} {ret : Int}
      {s : State A} (hruns : Runs w.kernel p) (hpc : w.waits p = none)
      (hcall : doFork fuel p flags w.kernel = some (ret, s)) :
      Step w (.fork p flags ret) { w with kernel := s }
  | exit {w : World A} {p : ν} {fuel : Nat} {code : Int} {u : Unit}
      {s : State A} (hruns : Runs w.kernel p) (hpc : w.waits p = none)
      (hcall : doExit fuel p code w.kernel = some (u, s)) :
      Step w (.exit p code) { w with kernel := s }
  | wait {w : World A} {p : ν} {fuel : Nat} {pid : Int}
      {codeStore : Option Nat} {r : Waited ν} {s : State A}
      (hruns : Runs w.kernel p) (hpc : w.waits p = none)
      (hcall : doWait fuel p pid codeStore w.kernel = some (r, s)) :
      Step w (.wait p pid codeStore r)
        { kernel := s
          waits := if r = .slept then
              Function.update w.waits p (some (pid, codeStore))
            else w.waits }
  | resume {w : World A} {p : ν} {fuel : Nat} {pid : Int}
      {codeStore : Option Nat} {r : Waited ν} {s : State A}
      (hruns : Runs w.kernel p) (hpc : w.waits p = some (pid, codeStore))
      (hcall : waitResume fuel p pid codeStore w.kernel = some (r, s)) :
      Step w (.resume p r)
        { kernel := s
          waits := if r = .slept then w.waits
            else Function.update w.waits p none }
  | kill {w : World A} {p : ν} {fuel : Nat} {pid ret : Int} {s : State A}
      (hruns : Runs w.kernel p) (hpc : w.waits p = none)
      (hcall : doKill fuel pid w.kernel = some (ret, s)) :
      Step w (.kill p pid ret) { w with kernel := s }
  | user {w : World A} {p : ν} {mm : Option A.Mm} {mem : A.State}
      (hruns : Runs w.kernel p) (hpc : w.waits p = none)
      (hlive : A.live mem = A.live w.kernel.mem) :
      Step w (.user p)
        { w with kernel := { w.kernel.update p fun q => { q with mm } with
                    mem } }

/-- The kernel after proc_init, whose variables have their initial
values. -/
structure Start (w : World A) : Prop where
  init : ∃ (s : State A) (fuel bootstack : Nat),
    s.nrProcess = 0 ∧ s.lastPid = maxPid ∧ s.nextSafe = maxPid
      ∧ s.idleproc = none ∧ s.initproc = none
      ∧ procInit fuel bootstack s = some ((), w.kernel)
  waits : ∀ p, w.waits p = none

-- =================================================== exits and reaps

/-- The code with which the process at `c` exits. -/
def Label.exits (c : ν) : Label ν → Option Int
  | .exit p code => if p = c then some code else none
  | .resume p .killed => if p = c then some eKilled else none
  | _ => none

/-- The code that a do_wait that reaps the process at `c` stores. -/
def Label.reaps (c : ν) : Label ν → Option (Option Int)
  | .wait _ _ _ (.reaped proc code) => if proc = c then some code else none
  | .resume _ (.reaped proc code) => if proc = c then some code else none
  | _ => none

/-- The codes that the processes at `c` passed to do_exit, in order. -/
def exits (c : ν) (ls : List (Label ν)) : List Int :=
  ls.filterMap (Label.exits c)

/-- The codes stored by the calls of do_wait that reaped the processes at
`c`, in order. -/
def reaps (c : ν) (ls : List (Label ν)) : List (Option Int) :=
  ls.filterMap (Label.reaps c)

end Ucore.Process

namespace Ucore.Process

open Ring Call

variable {ν : Type} [DecidableEq ν] {A : Memory ν}

/-- The loop of `schedule`: `next` when it ends. -/
def scheduleScan (s : State A) (last : Entry ν) :
    (fuel : Nat) → (le : Entry ν) → (next : Option ν) → Option (Option ν)
  | 0, _, _ => none
  | fuel + 1, le, next =>
      let le := listNext s.links le
      if le ≠ .procList then
        match le2proc le with
        | none => none
        | some next =>
            if (s.procs next).state = .runnable then some (some next)
            else if le ≠ last then scheduleScan s last fuel le (some next)
            else some (some next)
      else if le ≠ last then scheduleScan s last fuel le next
      else some next

/-- `schedule`, called by `current`: the process that runs next. -/
def schedule (fuel : Nat) (current : ν) : ProcM A ν := do
  let s ← get
  let last :=
    if some current = s.idleproc then .procList else .listLink current
  let next ← ofOption (scheduleScan s last fuel last none)
  match next with
  | none => ofOption s.idleproc
  | some next =>
      if (s.procs next).state ≠ .runnable then ofOption s.idleproc
      else return next

/-- The kernel and the process that runs. -/
structure Cpu (A : Memory ν) where
  world : World A
  current : ν

/-- A call of the running process, or of `schedule`, which lets `next`
run. -/
inductive Event (ν : Type) where
  | call (l : Label ν)
  | schedule (next : ν)
  deriving DecidableEq

/-- The process that makes a call. -/
def Label.caller : Label ν → ν
  | .fork p _ _ => p
  | .exit p _ => p
  | .wait p _ _ _ => p
  | .resume p _ => p
  | .kill p _ _ => p
  | .user p => p

/-- What the running process does next. -/
inductive CpuStep : Cpu A → Event ν → Cpu A → Prop
  | call {k : Cpu A} {l : Label ν} {w : World A} (hstep : Step k.world l w)
      (hcaller : l.caller = k.current)
      (hidle : k.world.kernel.idleproc ≠ some k.current) :
      CpuStep k (.call l) { k with world := w }
  | schedule {k : Cpu A} {fuel : Nat} {next : ν} {s : State A}
      (hcall : schedule fuel k.current k.world.kernel = some (next, s)) :
      CpuStep k (.schedule next)
        { world := { k.world with kernel := s }, current := next }

/-- After proc_init idle runs. -/
structure Cpu.Start (k : Cpu A) : Prop where
  world : Process.Start k.world
  current : k.world.kernel.idleproc = some k.current

end Ucore.Process
