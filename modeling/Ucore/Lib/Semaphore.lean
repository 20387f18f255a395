/-
Counting semaphores that hand a unit to the oldest waiter instead of
putting it back: the state, what the operations do to it, and what every
run keeps. A thread that was handed a unit holds it before it runs again,
so the balance of units counts what was handed over, not what returned.
-/
import Ucore.Lib.Run
import Mathlib.Data.List.Nodup
import Mathlib.Logic.Function.Basic

namespace Ucore

/-- Semaphores `σ` shared by threads `ν`. -/
structure Sema (σ ν : Type) where
  /-- The units that are free. -/
  value : σ → Nat
  /-- The threads that wait, oldest first. -/
  queue : σ → List ν
  /-- The semaphore whose unit a thread was handed, until it runs. -/
  granted : ν → Option σ

namespace Sema

variable {σ ν : Type} [DecidableEq σ] [DecidableEq ν]

/-- The operations. `up` says whom it releases, `down` and `tryDown` whether
they took a unit; `skip` is a step that is none of these. -/
inductive Op (σ ν : Type) where
  | up (t : ν) (s : σ) (w : Option ν)
  | down (t : ν) (s : σ) (took : Bool)
  | tryDown (t : ν) (s : σ) (took : Bool)
  | resume (t : ν) (s : σ)
  | skip (t : ν)
  deriving DecidableEq, Repr

variable {a b : Sema σ ν} {op : Op σ ν} {ops : List (Op σ ν)} {s r : σ}
  {t u w : ν}

/-- The thread neither waits nor was handed a unit. -/
def Idle (a : Sema σ ν) (t : ν) : Prop :=
  a.granted t = none ∧ ∀ s, t ∉ a.queue s

/-- Take a unit. -/
def take (a : Sema σ ν) (s : σ) : Sema σ ν :=
  { a with value := Function.update a.value s (a.value s - 1) }

/-- Put a unit back. -/
def put (a : Sema σ ν) (s : σ) : Sema σ ν :=
  { a with value := Function.update a.value s (a.value s + 1) }

/-- Hand a unit to the thread `w`, the others waiting being `q`. -/
def grant (a : Sema σ ν) (s : σ) (w : ν) (q : List ν) : Sema σ ν :=
  { a with
    queue := Function.update a.queue s q
    granted := Function.update a.granted w (some s) }

/-- Join the threads that wait. -/
def block (a : Sema σ ν) (t : ν) (s : σ) : Sema σ ν :=
  { a with queue := Function.update a.queue s (a.queue s ++ [t]) }

/-- Run again with the unit handed over. -/
def resume (a : Sema σ ν) (t : ν) : Sema σ ν :=
  { a with granted := Function.update a.granted t none }

/-- `up`. -/
def up (a : Sema σ ν) (s : σ) : Sema σ ν :=
  match a.queue s with
  | [] => a.put s
  | w :: q => a.grant s w q

/-- When an operation may be made, with the outcome it says. -/
def Allowed (a : Sema σ ν) : Op σ ν → Prop
  | .up t s w => a.Idle t ∧ w = (a.queue s).head?
  | .down t s took => a.Idle t ∧ (took = true ↔ 0 < a.value s)
  | .tryDown t s took => a.Idle t ∧ (took = true ↔ 0 < a.value s)
  | .resume t s => a.granted t = some s
  | .skip _ => True

/-- The state after an operation. -/
def next (a : Sema σ ν) : Op σ ν → Sema σ ν
  | .up _ s _ => a.up s
  | .down t s took => if took then a.take s else a.block t s
  | .tryDown _ s took => if took then a.take s else a
  | .resume t _ => a.resume t
  | .skip _ => a

/-- One operation. -/
def Step (a : Sema σ ν) (op : Op σ ν) (b : Sema σ ν) : Prop :=
  a.Allowed op ∧ b = a.next op

-- ============================================ fields after an update

@[simp] theorem take_queue : (a.take s).queue = a.queue := rfl

@[simp] theorem take_granted : (a.take s).granted = a.granted := rfl

@[simp] theorem put_queue : (a.put s).queue = a.queue := rfl

@[simp] theorem put_granted : (a.put s).granted = a.granted := rfl

@[simp] theorem grant_value {q : List ν} :
    (a.grant s w q).value = a.value := rfl

@[simp] theorem block_value : (a.block t s).value = a.value := rfl

@[simp] theorem block_granted : (a.block t s).granted = a.granted := rfl

@[simp] theorem resume_value : (a.resume t).value = a.value := rfl

@[simp] theorem resume_queue : (a.resume t).queue = a.queue := rfl

@[simp] theorem take_value : (a.take s).value r
    = if r = s then a.value s - 1 else a.value r := by
  simp [take, Function.update_apply]

@[simp] theorem put_value : (a.put s).value r
    = if r = s then a.value s + 1 else a.value r := by
  simp [put, Function.update_apply]

@[simp] theorem grant_queue {q : List ν} : (a.grant s w q).queue r
    = if r = s then q else a.queue r := by
  simp [grant, Function.update_apply]

@[simp] theorem grant_granted {q : List ν} : (a.grant s w q).granted t
    = if t = w then some s else a.granted t := by
  simp [grant, Function.update_apply]

@[simp] theorem block_queue : (a.block t s).queue r
    = if r = s then a.queue s ++ [t] else a.queue r := by
  simp [block, Function.update_apply]

@[simp] theorem resume_granted : (a.resume t).granted u
    = if u = t then none else a.granted u := by
  simp [resume, Function.update_apply]

theorem up_nil (h : a.queue s = []) : a.up s = a.put s := by
  unfold up
  rw [h]

theorem up_cons {q : List ν} (h : a.queue s = w :: q) :
    a.up s = a.grant s w q := by
  unfold up
  rw [h]

-- ===================================================== the invariant

/-- A free unit excludes waiters; a thread waits in one place, once, and
not with a unit. -/
structure Tight (a : Sema σ ν) : Prop where
  free : ∀ s, 0 < a.value s → a.queue s = []
  nodup : ∀ s, (a.queue s).Nodup
  apart : ∀ s r t, t ∈ a.queue s → t ∈ a.queue r → s = r
  ungranted : ∀ s t, t ∈ a.queue s → a.granted t = none

theorem Tight.take (h : a.Tight) : (a.take s).Tight := by
  refine ⟨fun r hr => h.free r ?_, h.nodup, h.apart, h.ungranted⟩
  rw [take_value] at hr
  split at hr
  case isTrue heq => rw [heq]; omega
  case isFalse => exact hr

theorem Tight.put (h : a.Tight) (hq : a.queue s = []) : (a.put s).Tight := by
  refine ⟨fun r hr => ?_, h.nodup, h.apart, h.ungranted⟩
  rw [put_queue]
  rw [put_value] at hr
  split at hr
  case isTrue heq => rw [heq]; exact hq
  case isFalse => exact h.free r hr

theorem Tight.grant {q : List ν} (h : a.Tight) (hq : a.queue s = w :: q) :
    (a.grant s w q).Tight := by
  have hsub : ∀ r x, x ∈ (a.grant s w q).queue r → x ∈ a.queue r := by
    intro r x hx
    rw [grant_queue] at hx
    split at hx
    case isTrue heq => rw [heq, hq]; exact List.mem_cons_of_mem w hx
    case isFalse => exact hx
  have hnd : (w :: q).Nodup := hq ▸ h.nodup s
  refine ⟨fun r hr => ?_, fun r => ?_, fun r r' x hx hx' => ?_,
    fun r x hx => ?_⟩
  · have hnil := h.free r hr
    rw [grant_queue]
    split
    case isTrue heq => rw [heq, hq] at hnil; cases hnil
    case isFalse => exact hnil
  · rw [grant_queue]
    split
    case isTrue => exact (List.nodup_cons.1 hnd).2
    case isFalse => exact h.nodup r
  · exact h.apart r r' x (hsub r x hx) (hsub r' x hx')
  · have hxw : x ≠ w := by
      intro heq
      have hrs : r = s := h.apart r s x (hsub r x hx) (by rw [heq, hq]; simp)
      rw [hrs, grant_queue, if_pos rfl, heq] at hx
      exact (List.nodup_cons.1 hnd).1 hx
    rw [grant_granted, if_neg hxw]
    exact h.ungranted r x (hsub r x hx)

theorem Tight.up (h : a.Tight) : (a.up s).Tight := by
  cases hq : a.queue s with
  | nil => rw [up_nil hq]; exact h.put hq
  | cons w q => rw [up_cons hq]; exact h.grant hq

theorem Tight.block (h : a.Tight) (hidle : a.Idle t) (hv : a.value s = 0) :
    (a.block t s).Tight := by
  have hmem : ∀ r x, x ∈ (a.block t s).queue r
      → x ∈ a.queue r ∨ r = s ∧ x = t := by
    intro r x hx
    rw [block_queue] at hx
    split at hx
    case isTrue heq =>
        rw [List.mem_append, List.mem_singleton, ← heq] at hx
        exact hx.imp id fun hxt => ⟨heq, hxt⟩
    case isFalse => exact Or.inl hx
  refine ⟨fun r hr => ?_, fun r => ?_, fun r r' x hx hx' => ?_,
    fun r x hx => ?_⟩
  · have hrs : r ≠ s := by
      intro heq
      rw [heq, block_value, hv] at hr
      exact Nat.lt_irrefl 0 hr
    rw [block_queue, if_neg hrs]
    exact h.free r hr
  · rw [block_queue]
    split
    case isTrue =>
        exact List.nodup_append.2 ⟨h.nodup s, List.nodup_singleton t,
          fun x hx y hy heq => hidle.2 s (by
            rw [List.mem_singleton] at hy
            rw [← hy, ← heq]
            exact hx)⟩
    case isFalse => exact h.nodup r
  · rcases hmem r x hx with hx | ⟨hr, hxt⟩
    · rcases hmem r' x hx' with hx' | ⟨hr', hxt⟩
      · exact h.apart r r' x hx hx'
      · exact absurd (hxt ▸ hx) (hidle.2 r)
    · rcases hmem r' x hx' with hx' | ⟨hr', -⟩
      · exact absurd (hxt ▸ hx') (hidle.2 r')
      · exact hr.trans hr'.symm
  · rcases hmem r x hx with hx | ⟨-, hxt⟩
    · exact h.ungranted r x hx
    · rw [hxt]
      exact hidle.1

theorem Tight.resume (h : a.Tight) : (a.resume t).Tight := by
  refine ⟨h.free, h.nodup, h.apart, fun r x hx => ?_⟩
  rw [resume_granted]
  split
  · rfl
  · exact h.ungranted r x hx

-- ================================================= where threads are

/-- `pc` knows where each thread is: the semaphore it waits for or was
handed a unit of. -/
def Places (a : Sema σ ν) (pc : ν → Option σ) : Prop :=
  ∀ t s, pc t = some s ↔ t ∈ a.queue s ∨ a.granted t = some s

variable {pc : ν → Option σ}

theorem Places.idle (h : a.Places pc) (ht : pc t = none) : a.Idle t := by
  constructor
  · cases hg : a.granted t with
    | none => rfl
    | some s =>
        have hpc := (h t s).2 (Or.inr hg)
        rw [ht] at hpc
        cases hpc
  · intro s hs
    have hpc := (h t s).2 (Or.inl hs)
    rw [ht] at hpc
    cases hpc

/-- Releasing a waiter leaves every thread where it was. -/
theorem Places.up (h : a.Places pc) (htight : a.Tight) (s : σ) :
    (a.up s).Places pc := by
  cases hq : a.queue s with
  | nil => rw [up_nil hq]; exact h
  | cons w q =>
      rw [up_cons hq]
      intro u r
      have hnd : (w :: q).Nodup := hq ▸ htight.nodup s
      have hws : w ∈ a.queue s := by
        rw [hq]
        exact List.mem_cons_self
      have hwait : w ∈ a.queue r ↔ r = s :=
        ⟨fun hr => htight.apart r s w hr hws, fun hr => hr ▸ hws⟩
      have hgw : a.granted w = none := htight.ungranted s w hws
      rw [h u r, grant_queue, grant_granted]
      by_cases hu : u = w
      · rw [if_pos hu, hu, hwait, hgw, Option.some.injEq]
        constructor
        · rintro (hr | hr)
          · exact Or.inr hr.symm
          · cases hr
        · rintro (hr | hr)
          · split at hr
            case isTrue hrs => exact Or.inl hrs
            case isFalse => exact Or.inl (hwait.1 hr)
          · exact Or.inl hr.symm
      · rw [if_neg hu]
        refine or_congr_left ?_
        split
        case isTrue hrs =>
            rw [hrs, hq, List.mem_cons]
            exact or_iff_right hu
        case isFalse => exact Iff.rfl

theorem Places.block (h : a.Places pc) (ht : pc t = none) (s : σ) :
    (a.block t s).Places (Function.update pc t (some s)) := by
  have hidle := h.idle ht
  intro u r
  rw [block_queue, block_granted, Function.update_apply]
  by_cases hu : u = t
  · rw [if_pos hu, hu, hidle.1, Option.some.injEq]
    constructor
    · intro hsr
      rw [if_pos hsr.symm]
      exact Or.inl (by simp)
    · rintro (hr | hr)
      · by_contra hsr
        rw [if_neg (Ne.symm hsr)] at hr
        exact hidle.2 r hr
      · cases hr
  · rw [if_neg hu, h u r]
    refine or_congr_left ?_
    split
    case isTrue hrs =>
        rw [hrs, List.mem_append, List.mem_singleton]
        exact (or_iff_left hu).symm
    case isFalse => exact Iff.rfl

theorem Places.resume (h : a.Places pc) (htight : a.Tight)
    (hg : a.granted t = some s) :
    (a.resume t).Places (Function.update pc t none) := by
  intro u r
  rw [Function.update_apply, resume_granted, resume_queue]
  by_cases hu : u = t
  · rw [if_pos hu, if_pos hu, hu]
    constructor
    · exact fun h => by cases h
    · rintro (hr | hr)
      · have hungranted := htight.ungranted r t hr
        rw [hg] at hungranted
        cases hungranted
      · cases hr
  · rw [if_neg hu, if_neg hu]
    exact h u r

-- ============================================== the other semaphores

theorem up_value_of_ne (hrs : r ≠ s) : (a.up s).value r = a.value r := by
  cases hq : a.queue s with
  | nil => rw [up_nil hq, put_value, if_neg hrs]
  | cons w q => rw [up_cons hq, grant_value]

/-- `up` hands out units of no other semaphore. -/
theorem up_granted_of_ne (h : a.Tight) (hrs : r ≠ s) :
    (a.up s).granted t = some r ↔ a.granted t = some r := by
  cases hq : a.queue s with
  | nil => rw [up_nil hq, put_granted]
  | cons w q =>
      have hgw : a.granted w = none :=
        h.ungranted s w (by rw [hq]; exact List.mem_cons_self)
      rw [up_cons hq, grant_granted]
      split
      case isTrue htw =>
          rw [htw, hgw, Option.some.injEq]
          exact ⟨fun heq => absurd heq.symm hrs, fun h => by cases h⟩
      case isFalse => exact Iff.rfl

-- ===================================================== laws of a run

/-- How many operations put a unit in. -/
def ups (s : σ) (ops : List (Op σ ν)) : Nat :=
  ops.countP fun
    | .up _ r _ => r = s
    | _ => false

/-- How many operations took a free unit. -/
def takes (s : σ) (ops : List (Op σ ν)) : Nat :=
  ops.countP fun
    | .down _ r true => r = s
    | .tryDown _ r true => r = s
    | _ => false

/-- The threads that blocked, in the order they did. -/
def arrivals (s : σ) (ops : List (Op σ ν)) : List ν :=
  ops.filterMap fun
    | .down t r false => if r = s then some t else none
    | _ => none

/-- The threads that were released, in the order they were. -/
def releases (s : σ) (ops : List (Op σ ν)) : List ν :=
  ops.filterMap fun
    | .up _ r (some w) => if r = s then some w else none
    | _ => none

theorem takes_cons : takes s (op :: ops) = takes s [op] + takes s ops := by
  rw [← List.singleton_append]
  exact List.countP_append

theorem ups_cons : ups s (op :: ops) = ups s [op] + ups s ops := by
  rw [← List.singleton_append]
  exact List.countP_append

theorem arrivals_cons :
    arrivals s (op :: ops) = arrivals s [op] ++ arrivals s ops := by
  rw [← List.singleton_append]
  exact List.filterMap_append

theorem releases_cons :
    releases s (op :: ops) = releases s [op] ++ releases s ops := by
  rw [← List.singleton_append]
  exact List.filterMap_append

/-- What one operation adds to the balance. -/
theorem Step.balance (h : Step a op b) :
    b.value s + takes s [op] + (releases s [op]).length
      = a.value s + ups s [op] := by
  obtain ⟨hop, rfl⟩ := h
  cases op with
  | up t r w =>
      obtain ⟨-, rfl⟩ := hop
      cases hq : a.queue r with
      | nil =>
          simp only [next, up_nil hq, takes, ups, releases, put_value]
          by_cases hrs : r = s
          · subst hrs
            simp
          · simp [hrs, Ne.symm hrs]
      | cons w q =>
          simp only [next, up_cons hq, takes, ups, releases, grant_value]
          by_cases hrs : r = s
          · subst hrs
            simp
          · simp [hrs]
  | down t r took =>
      cases took with
      | true =>
          have hv : 0 < a.value r := hop.2.1 rfl
          simp only [next, takes, ups, releases, if_true, take_value]
          by_cases hrs : r = s
          · subst hrs
            simp
            omega
          · simp [hrs, Ne.symm hrs]
      | false => simp [next, takes, ups, releases]
  | tryDown t r took =>
      cases took with
      | true =>
          have hv : 0 < a.value r := hop.2.1 rfl
          simp only [next, takes, ups, releases, if_true, take_value]
          by_cases hrs : r = s
          · subst hrs
            simp
            omega
          · simp [hrs, Ne.symm hrs]
      | false => simp [next, takes, ups, releases]
  | resume t r => simp [next, takes, ups, releases]
  | skip t => simp [next, takes, ups, releases]

/-- The balance of units over a run. -/
theorem run_balance (h : Run Step a ops b) :
    b.value s + takes s ops + (releases s ops).length
      = a.value s + ups s ops := by
  induction h with
  | nil a => simp [takes, releases, ups]
  | @cons a c b op ops hstep _ ih =>
      have hone := hstep.balance (s := s)
      rw [takes_cons, ups_cons, releases_cons, List.length_append]
      omega

/-- What one operation does to the order of waiting. -/
theorem Step.fifo (h : Step a op b) :
    a.queue s ++ arrivals s [op] = releases s [op] ++ b.queue s := by
  obtain ⟨hop, rfl⟩ := h
  cases op with
  | up t r w =>
      obtain ⟨-, rfl⟩ := hop
      cases hq : a.queue r with
      | nil => simp [next, up_nil hq, arrivals, releases]
      | cons w q =>
          simp only [next, up_cons hq, arrivals, releases, grant_queue]
          by_cases hrs : r = s
          · subst hrs
            simp [hq]
          · simp [hrs, Ne.symm hrs]
  | down t r took =>
      cases took with
      | true => simp [next, arrivals, releases]
      | false =>
          simp only [next, arrivals, releases]
          by_cases hrs : r = s
          · subst hrs
            simp
          · simp [hrs, Ne.symm hrs]
  | tryDown t r took =>
      cases took <;> simp [next, arrivals, releases]
  | resume t r => simp [next, arrivals, releases]
  | skip t => simp [next, arrivals, releases]

/-- First come, first served: who waited before a run or blocked in it was
released in it, in that order, or still waits. -/
theorem run_fifo (h : Run Step a ops b) :
    a.queue s ++ arrivals s ops = releases s ops ++ b.queue s := by
  induction h with
  | nil a => simp [arrivals, releases]
  | @cons a c b op ops hstep _ ih =>
      have hone := hstep.fifo (s := s)
      rw [arrivals_cons, releases_cons, ← List.append_assoc, hone, List.append_assoc, ih,
        List.append_assoc]

end Sema

end Ucore
