/-
Threads that call the semaphores, one call at a time in any order. A
thread that blocked is in `schedule` until it is runnable again; which
runnable thread goes on is left open. What threads do elsewhere in the
kernel is a step of its own: they may sleep in a state that others may
end, be woken from it, and exit.
-/
import Ucore.Lib.Semaphore
import Ucore.Sync.Sem

namespace Ucore.Sync

variable {σ ν : Type} [DecidableEq σ] [DecidableEq ν]

/-- The memory, and for a thread in `schedule` the semaphore whose `down`
called it. -/
structure World (σ ν : Type) where
  mem : State σ ν
  pc : ν → Option σ

/-- The thread runs outside the semaphores. -/
def Runs (W : World σ ν) (t : ν) : Prop :=
  (W.mem.procs t).state = .runnable ∧ W.pc t = none

instance (W : World σ ν) (t : ν) : Decidable (Runs W t) :=
  inferInstanceAs (Decidable (_ ∧ _))

/-- The state a call leaves, where the call ends as the label says. -/
def exec (W : World σ ν) : Sema.Op σ ν → Option (World σ ν)
  | .up t s w =>
      if Runs W t then
        match waitQueueFirst s W.mem, up s W.mem with
        | some (w', _), some ((), m) =>
            if w' = w then some { W with mem := m } else none
        | _, _ => none
      else none
  | .down t s took =>
      if Runs W t then
        match downEnter t s W.mem with
        | some (took', m) =>
            if took' = took then
              some { mem := m
                     pc := if took then W.pc
                       else Function.update W.pc t (some s) }
            else none
        | none => none
      else none
  | .tryDown t s took =>
      if Runs W t then
        match tryDown s W.mem with
        | some (took', m) =>
            if took' = took then some { W with mem := m } else none
        | none => none
      else none
  | .resume t s =>
      if (W.mem.procs t).state = .runnable ∧ W.pc t = some s then
        match downLeave t s W.mem with
        | some ((), m) =>
            some { mem := m, pc := Function.update W.pc t none }
        | none => none
      else none
  | .skip _ => none

/-- What happens to a process elsewhere in the kernel. `wakeup_proc` is
called on a new process, or on one whose wait state others may end. -/
inductive Elsewhere (W : World σ ν) (t : ν) : State σ ν → Prop
  | sleep (waitState : BitVec 32) :
      Runs W t → waitState &&& wtInterrupted ≠ 0 →
      Elsewhere W t (W.mem.setProc t ⟨.sleeping, waitState⟩)
  | exit :
      Runs W t →
      Elsewhere W t (W.mem.setProc t { W.mem.procs t with state := .zombie })
  | wakeup {m : State σ ν} :
      (W.mem.procs t).state = .uninit
        ∨ (W.mem.procs t).waitState &&& wtInterrupted ≠ 0 →
      wakeupProc t W.mem = some ((), m) → Elsewhere W t m

/-- One step. -/
inductive Step : World σ ν → Sema.Op σ ν → World σ ν → Prop
  | call {W W' : World σ ν} {op : Sema.Op σ ν} :
      exec W op = some W' → Step W op W'
  | skip {W : World σ ν} {t : ν} {m : State σ ν} :
      Elsewhere W t m → Step W (.skip t) { W with mem := m }

/-- `sem_init` was called on every semaphore, with a value of at least 0,
and no thread has called one since. -/
structure Start (W : World σ ν) : Prop where
  init : ∀ s, ∃ v, 0 ≤ v ∧ semInit s v W.mem = some ((), W.mem)
  outside : ∀ t, W.pc t = none

-- ================================================ what is to be kept

section Claims

variable (W : World σ ν) (ops : List (Sema.Op σ ν)) (W' : World σ ν) (s : σ)
  (q : List ν)

/-- What an `up` by any thread does to a semaphore whose queue is `q`. -/
def Releases : Prop :=
  ∀ {t w W''}, Step W' (.up t s w) W'' →
    match q with
    | [] => w = none ∧ W''.mem = W'.mem.setValue s (W'.mem.value s + 1)
    | x :: q' => w = some x
        ∧ W''.mem.value = W'.mem.value
        ∧ Ring.IsRing W''.mem.links (.waitHead s) (q'.map .waitLink)
        ∧ (W''.mem.procs x).state = .runnable
        ∧ ∀ y ≠ x, W''.mem.procs y = W'.mem.procs y

/-- The semaphore `s` after the run `ops` from `W` to `W'`, its queue
holding `q`. -/
structure Correct : Prop where
  ring : Ring.IsRing W'.mem.links (.waitHead s) (q.map .waitLink)
  nonneg : 0 ≤ W'.mem.value s
  free : 0 < W'.mem.value s → q = []
  balance : W.mem.value s + Sema.ups s ops
    = Sema.takes s ops + (Sema.releases s ops).length + W'.mem.value s
  fifo : Sema.arrivals s ops = Sema.releases s ops ++ q
  release : Releases W' s q
  waiting : ∀ t, t ∈ q → (W'.mem.procs t).state = .sleeping
    ∧ W'.pc t = some s

/-- Every call a thread can make returns, so no assertion in it fails.
`up` needs room to count when nobody waits. -/
structure Returns (W : World σ ν) : Prop where
  up : ∀ t s, Runs W t →
    W.mem.value s < intMax ∨ ¬ listEmpty W.mem.links (.waitHead s) →
    ∃ w W', Step W (.up t s w) W'
  down : ∀ t s, Runs W t → ∃ took W', Step W (.down t s took) W'
  tryDown : ∀ t s, Runs W t → ∃ took W', Step W (.tryDown t s took) W'
  resume : ∀ t s, W.pc t = some s → (W.mem.procs t).state = .runnable →
    ∃ W', Step W (.resume t s) W'

end Claims

end Ucore.Sync
