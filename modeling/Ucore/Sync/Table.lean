/-
The dining philosophers on counting semaphores that hand over their
units: where each philosopher is, and the invariant that seats no two
neighbours and leaves nobody hungry for want of a wake-up.
-/
import Ucore.Lib.Semaphore
import Ucore.Sync.CheckSync
import Mathlib.Data.Fintype.Basic

namespace Ucore.Sync

-- ========================================================= the steps

namespace Pc

/-- Moves that touch nothing shared. -/
inductive Local : Pc → Pc → Prop
  | again : Local .loop .think
  | quit : Local .loop .quit
  | think : Local .think .thinkSleep
  | thought : Local .thinkSleep .takeDown
  | eat : Local .eat .eatSleep
  | ate : Local .eatSleep .putDown

/-- The calls of `down`: before the call, the semaphore, in `schedule` and
after the call. -/
inductive Downs (i : Phi) : Pc → PhiSem → Pc → Pc → Prop
  | take : Downs i .takeDown .mutex .takeWait .takeStore
  | self : Downs i .selfDown (.s i) .selfWait .eat
  | put : Downs i .putDown .mutex .putWait .putStore

/-- The calls of `up(&mutex)`. -/
inductive Unlocks : Pc → Pc → Prop
  | take : Unlocks .takeUp .selfDown
  | put : Unlocks .putUp .loop

/-- The semaphore in whose `down` the thread called `schedule`. -/
def waitsOn (i : Phi) : Pc → Option PhiSem
  | .takeWait => some .mutex
  | .putWait => some .mutex
  | .selfWait => some (.s i)
  | _ => none

end Pc

/-- The semaphores, `state_sema` and where the philosophers are. -/
structure Table where
  sem : Sema PhiSem Phi
  state : Phi → PhiState
  pc : Phi → Pc

namespace Table

/-- Change the semaphores and go on at `p`. -/
def goto (T : Table) (b : Sema PhiSem Phi) (i : Phi) (p : Pc) : Table :=
  { T with sem := b, pc := Function.update T.pc i p }

/-- Store `state_sema[t]` and go on at `p`. -/
def store (T : Table) (t : Phi) (st : PhiState) (i : Phi) (p : Pc) : Table :=
  { T with
    state := Function.update T.state t st
    pc := Function.update T.pc i p }

/-- What a statement of `phi_test_sema` reads, for it to go on. -/
def Passes (T : Table) (t : Phi) : TestPc → TestPc → Prop
  | .self, .left => T.state t = .hungry
  | .left, .right => T.state (left t) ≠ .eating
  | .right, .store => T.state (right t) ≠ .eating
  | _, _ => False

/-- What it reads, for it to return. -/
def Fails (T : Table) (t : Phi) : TestPc → Prop
  | .self => T.state t ≠ .hungry
  | .left => T.state (left t) = .eating
  | .right => T.state (right t) = .eating
  | _ => False

/-- One step of philosopher `i`. -/
inductive Step (T : Table) (i : Phi) : Table → Prop
  | idle {p : Pc} : Pc.Local (T.pc i) p → Step T i (T.goto T.sem i p)
  | take {r : PhiSem} {w q : Pc} :
      Pc.Downs i (T.pc i) r w q → 0 < T.sem.value r →
      Step T i (T.goto (T.sem.take r) i q)
  | block {r : PhiSem} {w q : Pc} :
      Pc.Downs i (T.pc i) r w q → T.sem.value r = 0 →
      Step T i (T.goto (T.sem.block i r) i w)
  | resume {r : PhiSem} {p q : Pc} :
      Pc.Downs i p r (T.pc i) q → T.sem.granted i = some r →
      Step T i (T.goto (T.sem.resume i) i q)
  | hungry : T.pc i = .takeStore →
      Step T i (T.store i .hungry i (.test .take .self))
  | pass {c : Caller} {k k' : TestPc} :
      T.pc i = .test c k → T.Passes (c.arg i) k k' →
      Step T i (T.goto T.sem i (.test c k'))
  | fail {c : Caller} {k : TestPc} :
      T.pc i = .test c k → T.Fails (c.arg i) k →
      Step T i (T.goto T.sem i c.ret)
  | seat {c : Caller} : T.pc i = .test c .store →
      Step T i (T.store (c.arg i) .eating i (.test c .up))
  | serve {c : Caller} : T.pc i = .test c .up →
      Step T i (T.goto (T.sem.up (.s (c.arg i))) i c.ret)
  | thinking : T.pc i = .putStore →
      Step T i (T.store i .thinking i (.test .putLeft .self))
  | unlock {p : Pc} : Pc.Unlocks (T.pc i) p →
      Step T i (T.goto (T.sem.up .mutex) i p)

-- ===================================================== the invariant

end Table

namespace Pc

/-- Between `down(&mutex)` and `up(&mutex)`. -/
def inside : Pc → Bool
  | .takeStore | .test _ _ | .takeUp | .putStore | .putUp => true
  | _ => false

/-- Past `phi_test_sema` and `down(&s[i])`, and not yet done eating. -/
def seated : Pc → Bool
  | .eat | .eatSleep | .putDown | .putWait | .putStore => true
  | _ => false

/-- The values `state_sema[i]` can have. -/
def Fits : Pc → PhiState → Prop
  | .test .take _, st => st ≠ .thinking
  | .takeUp, st => st ≠ .thinking
  | .selfDown, st => st ≠ .thinking
  | .selfWait, st => st ≠ .thinking
  | .eat, st => st = .eating
  | .eatSleep, st => st = .eating
  | .putDown, st => st = .eating
  | .putWait, st => st = .eating
  | .putStore, st => st = .eating
  | _, st => st = .thinking

/-- The philosopher who is owed an `up`. -/
def serves (i : Phi) : Pc → Option Phi
  | .test c .up => some (c.arg i)
  | _ => none

/-- The philosophers who are still to be tested. -/
def toTest (i : Phi) : Pc → List Phi
  | .test .take .up => []
  | .test .take _ => [i]
  | .test .putLeft .up => [right i]
  | .test .putLeft _ => [left i, right i]
  | .test .putRight .up => []
  | .test .putRight _ => [right i]
  | _ => []

end Pc

namespace Table

/-- The thread has the unit of `mutex`. -/
def Holder (T : Table) (i : Phi) : Prop :=
  (T.pc i).inside = true ∨ T.sem.granted i = some .mutex

/-- One thread has the unit of `mutex`, or it is free. -/
def Mutex (T : Table) : Prop :=
  (T.sem.value .mutex = 1 ∧ ∀ i, ¬ T.Holder i)
    ∨ (T.sem.value .mutex = 0 ∧ ∃ i, T.Holder i ∧ ∀ j, T.Holder j → j = i)

/-- Some thread owes `t` an `up`. -/
def Served (T : Table) (t : Phi) : Prop :=
  ∃ j, (T.pc j).serves j = some t

instance (T : Table) (t : Phi) : Decidable (T.Served t) :=
  inferInstanceAs (Decidable (∃ j, (T.pc j).serves j = some t))

/-- The units of `s[t]`, free or handed over. -/
def units (a : Sema PhiSem Phi) (t : Phi) : Nat :=
  a.value (.s t) + (a.granted t == some (.s t)).toNat

/-- The permissions to eat that are around for `t`: a unit of `s[t]`, an
`up` that is owed, and the one `t` eats on. -/
def meals (T : Table) (t : Phi) : Nat :=
  units T.sem t + (decide (T.Served t)).toNat + (T.pc t).seated.toNat

/-- What `phi_test_sema` has found out about `t`. -/
def Tested (T : Table) (t : Phi) : TestPc → Prop
  | .self => True
  | .left => T.state t = .hungry
  | .right => T.state t = .hungry ∧ T.state (left t) ≠ .eating
  | .store => T.state t = .hungry ∧ T.state (left t) ≠ .eating
      ∧ T.state (right t) ≠ .eating
  | .up => T.state t = .eating

/-- Somebody eats next to `t`, or will test `t`. -/
def Attended (T : Table) (t : Phi) : Prop :=
  T.state (left t) = .eating ∨ T.state (right t) = .eating
    ∨ ∃ j, t ∈ (T.pc j).toTest j

/-- The invariant of the table. -/
structure Inv (T : Table) : Prop where
  tight : T.sem.Tight
  places : T.sem.Places fun i => (T.pc i).waitsOn i
  mutex : T.Mutex
  fits : ∀ i, (T.pc i).Fits (T.state i)
  meals : ∀ t, T.meals t = if T.state t = .eating then 1 else 0
  apart : ∀ t, T.state t = .eating → T.state (right t) ≠ .eating
  tested : ∀ j c k, T.pc j = .test c k → T.Tested (c.arg j) k
  attended : ∀ t, T.state t = .hungry → T.Attended t

end Table

end Ucore.Sync
