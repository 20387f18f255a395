/-
kern/sync/check_sync.c of lab7: the dining philosophers with semaphores.

A thread's program counter stands before each statement that reads or
writes what the threads share, and in `schedule` where a call blocks. One
step is one such statement, so the threads interleave at least as finely
as the kernel lets them.
-/
import Ucore.Sync.Sem

namespace Ucore.Sync

/-- The philosophers, `N` of them. -/
abbrev Phi : Type := Fin 5

/-- `LEFT`. -/
def left (i : Phi) : Phi := ⟨(i.val + 5 - 1) % 5, Nat.mod_lt _ (by decide)⟩

/-- `RIGHT`. -/
def right (i : Phi) : Phi := ⟨(i.val + 1) % 5, Nat.mod_lt _ (by decide)⟩

/-- The semaphores: `mutex`, and `s[i]`. -/
inductive PhiSem where
  | mutex
  | s (i : Phi)
  deriving DecidableEq

/-- The values of `state_sema`. -/
inductive PhiState where
  | thinking
  | hungry
  | eating
  deriving DecidableEq

-- ================================================== program counters

/-- Who calls `phi_test_sema`: `phi_take_forks_sema`, or
`phi_put_forks_sema` for either neighbour. -/
inductive Caller where
  | take
  | putLeft
  | putRight
  deriving DecidableEq

/-- The argument of `phi_test_sema`. -/
def Caller.arg : Caller → Phi → Phi
  | .take, i => i
  | .putLeft, i => left i
  | .putRight, i => right i

/-- Where a thread is in `phi_test_sema`: before one of the three reads of
the condition, the store or the `up`. -/
inductive TestPc where
  | self
  | left
  | right
  | store
  | up
  deriving DecidableEq

/-- Where a thread is. -/
inductive Pc where
  /-- Before `iter++ < TIMES`. -/
  | loop
  /-- Before the `do_sleep` after thinking, and in it. -/
  | think
  | thinkSleep
  /-- `phi_take_forks_sema`. -/
  | takeDown
  | takeWait
  | takeStore
  /-- `phi_test_sema`. -/
  | test (c : Caller) (k : TestPc)
  /-- The rest of `phi_take_forks_sema`. -/
  | takeUp
  | selfDown
  | selfWait
  /-- Before the `do_sleep` after eating, and in it. -/
  | eat
  | eatSleep
  /-- `phi_put_forks_sema`. -/
  | putDown
  | putWait
  | putStore
  | putUp
  | quit
  deriving DecidableEq

/-- Where `phi_test_sema` returns to. -/
def Caller.ret : Caller → Pc
  | .take => .takeUp
  | .putLeft => .test .putRight .self
  | .putRight => .putUp

-- ============================================================= steps

/-- The memory of the five threads. -/
structure Philosophers where
  mem : State PhiSem Phi
  stateSema : Phi → PhiState
  iter : Phi → Nat
  pc : Phi → Pc

namespace Philosophers

/-- A thread goes on at `p`. -/
def goto (W : Philosophers) (i : Phi) (p : Pc) : Philosophers :=
  { W with pc := Function.update W.pc i p }

/-- Store `state_sema[i]`. -/
def store (W : Philosophers) (i : Phi) (st : PhiState) : Philosophers :=
  { W with stateSema := Function.update W.stateSema i st }

/-- Call a semaphore and go on where its result says. -/
def call {α : Type} (W : Philosophers) (i : Phi) (m : SyncM PhiSem Phi α)
    (next : α → Pc) : Option Philosophers :=
  match m W.mem with
  | some (r, mem) => some ({ W with mem }.goto i (next r))
  | none => none

/-- One statement of `phi_test_sema`, called by thread `i`. -/
def phiTestSema (W : Philosophers) (i : Phi) (c : Caller) :
    TestPc → Option Philosophers
  | .self =>
      if W.stateSema (c.arg i) = .hungry then
        some (W.goto i (.test c .left))
      else some (W.goto i c.ret)
  | .left =>
      if W.stateSema (Sync.left (c.arg i)) ≠ .eating then
        some (W.goto i (.test c .right))
      else some (W.goto i c.ret)
  | .right =>
      if W.stateSema (Sync.right (c.arg i)) ≠ .eating then
        some (W.goto i (.test c .store))
      else some (W.goto i c.ret)
  | .store => some ((W.store (c.arg i) .eating).goto i (.test c .up))
  | .up => W.call i (Sync.up (.s (c.arg i))) fun _ => c.ret

/-- `do_sleep` up to `schedule`: the thread sleeps on a timer. -/
def doSleep (W : Philosophers) (i : Phi) (p : Pc) : Philosophers :=
  { W with mem := W.mem.setProc i ⟨.sleeping, wtTimer⟩ }.goto i p

/-- The next statement of thread `i`, in a run of `times` rounds. -/
def step (times : Nat) (W : Philosophers) (i : Phi) : Option Philosophers :=
  match W.pc i with
  | .loop =>
      let W' := { W with iter := Function.update W.iter i (W.iter i + 1) }
      if W.iter i < times then some (W'.goto i .think)
      else some (W'.goto i .quit)
  | .think => some (W.doSleep i .thinkSleep)
  | .thinkSleep => some (W.goto i .takeDown)
  | .takeDown =>
      W.call i (downEnter i .mutex) fun took =>
        if took then .takeStore else .takeWait
  | .takeWait => W.call i (downLeave i .mutex) fun _ => .takeStore
  | .takeStore => some ((W.store i .hungry).goto i (.test .take .self))
  | .test c k => W.phiTestSema i c k
  | .takeUp => W.call i (up .mutex) fun _ => .selfDown
  | .selfDown =>
      W.call i (downEnter i (.s i)) fun took =>
        if took then .eat else .selfWait
  | .selfWait => W.call i (downLeave i (.s i)) fun _ => .eat
  | .eat => some (W.doSleep i .eatSleep)
  | .eatSleep => some (W.goto i .putDown)
  | .putDown =>
      W.call i (downEnter i .mutex) fun took =>
        if took then .putStore else .putWait
  | .putWait => W.call i (downLeave i .mutex) fun _ => .putStore
  | .putStore => some ((W.store i .thinking).goto i (.test .putLeft .self))
  | .putUp => W.call i (up .mutex) fun _ => .loop
  | .quit => none

/-- A thread runs its next statement, or the timer of its `do_sleep`
expires. -/
inductive Event where
  | run (i : Phi)
  | timer (i : Phi)

/-- The state after an event: only a runnable thread runs, and only a
thread in `do_sleep` has a timer. -/
def exec (times : Nat) (W : Philosophers) : Event → Option Philosophers
  | .run i =>
      if (W.mem.procs i).state = .runnable then W.step times i else none
  | .timer i =>
      if (W.pc i = .thinkSleep ∨ W.pc i = .eatSleep)
          ∧ W.mem.procs i = ⟨.sleeping, wtTimer⟩ then
        match wakeupProc i W.mem with
        | some ((), mem) => some { W with mem }
        | none => none
      else none

/-- One event. -/
def Step (times : Nat) (W : Philosophers) (ev : Event)
    (W' : Philosophers) : Prop :=
  W.exec times ev = some W'

/-- `check_sync` made the semaphores and the threads, and none has run. -/
structure Start (W : Philosophers) : Prop where
  mutex : semInit .mutex 1 W.mem = some ((), W.mem)
  self : ∀ i, semInit (.s i) 0 W.mem = some ((), W.mem)
  runnable : ∀ i, (W.mem.procs i).state = .runnable
  thinking : ∀ i, W.stateSema i = .thinking
  iter : ∀ i, W.iter i = 0
  loop : ∀ i, W.pc i = .loop

end Philosophers

end Ucore.Sync
