/-
kern/schedule/sched.c of lab7: the list of timers.

The tick of `run_timer_list` to the scheduling class touches no timer and is
left out. What `run_timer_list` finds the processes in is given with each
call: other code runs them in between. The loops take fuel.
-/
import Ucore.Lib.Run
import Ucore.Libs.List
import Ucore.Process.State
import Mathlib.Algebra.Group.Int.Defs
import Mathlib.Algebra.Group.Nat.Defs

namespace Ucore.Timer

open Ring

/-- The head of the timer list, and the links of the timers. -/
inductive Entry where
  | timerList
  | timerLink (timer : Nat)
  deriving DecidableEq

/-- The timers. `proc` is `NULL` as `none`. -/
structure State where
  links : Links Entry
  expires : Nat → Nat
  proc : Nat → Option Nat

/-- What a timer finds of the processes. -/
structure Procs where
  state : Nat → ProcState
  waitState : Nat → BitVec 32

/-- What ends a call that does not return: an assertion, or the loop is not
over yet. -/
inductive Failure where
  | headExpires
  | timer
  | waitState
  | zombie
  | fuel
  deriving DecidableEq

/-- `le2timer`. -/
def le2timer : Entry → Nat
  | .timerLink t => t
  | .timerList => 0

/-- `timer_init`. -/
def timerInit (t : Nat) (proc : Option Nat) (expires : Int) (s : State) :
    State :=
  { links := listInit s.links (.timerLink t)
    expires := Function.update s.expires t (expires % 2 ^ 32).toNat
    proc := Function.update s.proc t proc }

/-- The loop of `add_timer`: where it stops. -/
def addLoop (t : Nat) : (fuel : Nat) → Entry → State →
    Except Failure (Entry × State)
  | 0, _, _ => .error .fuel
  | fuel + 1, le, s =>
      if le = .timerList then .ok (le, s)
      else
        let next := le2timer le
        if s.expires t < s.expires next then
          .ok (le, { s with
            expires := Function.update s.expires next
              (s.expires next - s.expires t) })
        else
          addLoop t fuel (listNext s.links le)
            { s with
              expires := Function.update s.expires t
                (s.expires t - s.expires next) }

/-- `add_timer`. -/
def addTimer (fuel t : Nat) (s : State) : Except Failure State :=
  if 0 < s.expires t ∧ s.proc t ≠ none
      ∧ listEmpty s.links (.timerLink t) = true then
    match addLoop t fuel (listNext s.links .timerList) s with
    | .error e => .error e
    | .ok (le, s) =>
        .ok { s with links := listAddBefore s.links le (.timerLink t) }
  else .error .timer

/-- `del_timer`. -/
def delTimer (t : Nat) (s : State) : State :=
  if listEmpty s.links (.timerLink t) = true then s
  else
    let s :=
      if s.expires t ≠ 0 then
        let le := listNext s.links (.timerLink t)
        if le ≠ .timerList then
          let next := le2timer le
          { s with
            expires := Function.update s.expires next
              ((s.expires next + s.expires t) % 2 ^ 32) }
        else s
      else s
    { s with links := listDelInit s.links (.timerLink t) }

/-- `wakeup_proc`, less the run queue. -/
def wakeupProc (p : Nat) (ps : Procs) : Except Failure Procs :=
  if ps.state p = .zombie then .error .zombie
  else if ps.state p ≠ .runnable then
    .ok { state := Function.update ps.state p .runnable
          waitState := Function.update ps.waitState p 0 }
  else .ok ps

/-- The loop of `run_timer_list`, with the timers whose process it has woken
up. -/
def runLoop : (fuel : Nat) → (t : Nat) → State → Procs → List Nat →
    Except Failure (List Nat × State)
  | 0, _, _, _, _ => .error .fuel
  | fuel + 1, t, s, ps, fired =>
      if s.expires t = 0 then
        let le := listNext s.links (.timerLink t)
        match s.proc t with
        | none => .error .timer
        | some p =>
            if ps.waitState p ≠ 0 ∧ ps.waitState p &&& wtInterrupted = 0 then
              .error .waitState
            else
              match wakeupProc p ps with
              | .error e => .error e
              | .ok ps =>
                  let s := delTimer t s
                  if le = .timerList then .ok (fired ++ [t], s)
                  else runLoop fuel (le2timer le) s ps (fired ++ [t])
      else .ok (fired, s)

/-- `run_timer_list`: the timers that fire, in order. -/
def runTimerList (fuel : Nat) (ps : Procs) (s : State) :
    Except Failure (List Nat × State) :=
  let le := listNext s.links .timerList
  if le = .timerList then .ok ([], s)
  else
    let t := le2timer le
    if s.expires t = 0 then .error .headExpires
    else
      runLoop fuel t
        { s with expires := Function.update s.expires t (s.expires t - 1) }
        ps []

-- ========================================================= the calls

/-- A call. -/
inductive Label where
  | init (t : Nat)
  | add (t expires : Nat)
  | del (t : Nat)
  | tick (fired : List Nat)
  deriving DecidableEq

/-- `timer_init` is for timers that are not on the list. The label of
`add_timer` says what `expires` was. -/
inductive Step : State → Label → State → Prop
  | init {s : State} {t : Nat} {proc : Option Nat} {expires : Int}
      (hfree : listEmpty s.links (.timerLink t) = true) :
      Step s (.init t) (timerInit t proc expires s)
  | add {s s' : State} {t fuel : Nat}
      (hcall : addTimer fuel t s = .ok s') :
      Step s (.add t (s.expires t)) s'
  | del {s : State} {t : Nat} : Step s (.del t) (delTimer t s)
  | tick {s s' : State} {fuel : Nat} {ps : Procs} {fired : List Nat}
      (hcall : runTimerList fuel ps s = .ok (fired, s')) :
      Step s (.tick fired) s'

/-- The timer list is empty and no timer is linked. -/
structure Start (s : State) : Prop where
  list : IsRing s.links .timerList []
  timers : ∀ t, IsRing s.links (.timerLink t) []
  word : ∀ t, s.expires t < 2 ^ 32

/-- No timer is set up. -/
def empty : State where
  links := { next := id, prev := id }
  expires := fun _ => 0
  proc := fun _ => none

/-- Every process sleeps, and can be interrupted. -/
def waiting : Procs where
  state := fun _ => .sleeping
  waitState := fun _ => wtInterrupted

theorem Start.empty : Start empty where
  list := isRing_nil.2 ⟨rfl, rfl⟩
  timers _ := isRing_nil.2 ⟨rfl, rfl⟩
  word _ := Nat.two_pow_pos 32

-- ======================================================= what is due

/-- The calls of `run_timer_list`. -/
def ticks : List Label → Nat
  | [] => 0
  | .tick _ :: ls => ticks ls + 1
  | .init _ :: ls => ticks ls
  | .add _ _ :: ls => ticks ls
  | .del _ :: ls => ticks ls

/-- The call adds or deletes the timer. -/
def Touches (t : Nat) : Label → Prop
  | .init _ => False
  | .add t' _ => t' = t
  | .del t' => t' = t
  | .tick _ => False

/-- After the calls `before`, the timer `t` is to fire in the next call of
`run_timer_list`: it was last added for just as many calls as there have been
since, this one included, and not deleted. -/
def DueNext (before : List Label) (t : Nat) : Prop :=
  ∃ first e since, before = first ++ .add t e :: since
    ∧ (∀ l ∈ since, ¬ Touches t l) ∧ ticks since + 1 = e

/-- In every call of `run_timer_list` exactly the timers that are due fire,
each once. -/
def OnTime (ls : List Label) : Prop :=
  ∀ before fired after, ls = before ++ .tick fired :: after →
    fired.Nodup ∧ ∀ t, t ∈ fired ↔ DueNext before t

end Ucore.Timer
