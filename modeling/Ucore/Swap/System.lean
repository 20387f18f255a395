/-
lab3: the operations on the address spaces, in any order.

User loads and stores under paging. The hardware walks the page table; an
access that no entry permits is a page fault, which `do_pgfault` serves, and
the access is made again.
-/
import Ucore.Swap.Vmm
import Ucore.Lib.Run

namespace Ucore.Swap

open Mm (Vma findVma)

variable {M : PmmManager}

/-- An operation. `checkMm` is an assignment to `check_mm_struct`. -/
inductive Op
  | mmCreate (pgdir : Nat) (mmapList : List Vma)
  | checkMm (mm : Option Nat)
  | doPgfault (mm addr : Nat)
  | swapOut (mm n : Nat)
  | swapIn (mm addr : Nat)
  | pageRemove (pgdir la : Nat)

/-- What an operation does. -/
def exec (sm : Manager) : Op → Call (State M) Unit
  | .mmCreate pgdir mmapList => do
      let _ ← mmCreate sm pgdir mmapList
      pure ()
  | .checkMm mm => Call.modify fun s => { s with checkMm := mm }
  | .doPgfault mm addr => do
      let _ ← doPgfault sm mm addr
      pure ()
  | .swapOut mm n => do
      let val ← derefMm (some mm)
      swapOut sm val 0 n
  | .swapIn mm addr => do
      let val ← derefMm (some mm)
      let _ ← swapIn sm val addr
      pure ()
  | .pageRemove pgdir la => pageRemove pgdir la

def Step (sm : Manager) (s : State M) (op : Op) (t : State M) : Prop :=
  exec sm op s = some ((), t)

/-- Operations one after the other. -/
def execAll (sm : Manager) : List Op → Call (State M) Unit
  | [] => pure ()
  | op :: ops => do
      exec sm op
      execAll sm ops

theorem run_of_execAll {sm : Manager} {ops : List Op} {s t : State M}
    (h : execAll sm ops s = some ((), t)) : Run (Step sm) s ops t := by
  induction ops generalizing s with
  | nil =>
      obtain ⟨-, rfl⟩ := Call.pure_eq_some.1 h
      exact .nil t
  | cons op ops ih =>
      obtain ⟨⟨⟩, s₁, hop, hrest⟩ := Call.bind_eq_some.1 h
      exact .cons hop (ih hrest)

end Ucore.Swap

namespace Ucore.Swap

variable {M : PmmManager}

/-- Sv39 addresses: the upper bits repeat bit 38. -/
def Canonical (a : Nat) : Prop :=
  a < 2 ^ 38 ∨ 2 ^ 64 - 2 ^ 38 ≤ a ∧ a < 2 ^ 64

instance (a : Nat) : Decidable (Canonical a) :=
  inferInstanceAs (Decidable (_ ∨ _))

/-- The entry of the address permits user accesses of a kind. -/
def Permits (s : State M) (pgdir a flag : Nat) : Prop :=
  Canonical a ∧ hasFlag (s.lookup pgdir (slotOf a)) pteV
    ∧ hasFlag (s.lookup pgdir (slotOf a)) pteU
    ∧ hasFlag (s.lookup pgdir (slotOf a)) flag

instance (s : State M) (pgdir a flag : Nat) :
    Decidable (Permits s pgdir a flag) :=
  inferInstanceAs (Decidable (_ ∧ _))

/-- A load; `none` is a page fault. -/
def load (s : State M) (pgdir a : Nat) : Option Nat :=
  if Permits s pgdir a pteR then
    (frameOf (s.lookup pgdir (slotOf a))).map fun p => s.mem p (pgoff a)
  else none

/-- A store; `none` is a page fault. -/
def store (s : State M) (pgdir a v : Nat) : Option (State M) :=
  if Permits s pgdir a pteW then
    (frameOf (s.lookup pgdir (slotOf a))).map fun p =>
      let frame := Function.update (s.mem p) (pgoff a) v
      { s with mem := Function.update s.mem p frame }
  else none

/-- What happens to a process: a load of a value, a store, a page fault
that was served, and calls of `swap_out` and `swap_in` in between. -/
inductive Event
  | load (a v : Nat)
  | store (a v : Nat)
  | fault (a : Nat)
  | swapOut (n : Nat)
  | swapIn (a : Nat)

/-- The steps of the process whose `mm_struct` is `mm`. A fault comes of an
access that is not permitted; where `do_pgfault` fails the kernel panics. -/
def UserStep (sm : Manager) (mm : Nat) (s : State M) (e : Event)
    (t : State M) : Prop :=
  ∃ val, s.mms mm = some val ∧
    match e with
    | .load a v => load s val.pgdir a = some v ∧ t = s
    | .store a v => store s val.pgdir a v = some t
    | .fault a =>
        (¬ Permits s val.pgdir a pteR ∨ ¬ Permits s val.pgdir a pteW)
          ∧ doPgfault sm mm a s = some (true, t)
    | .swapOut n => swapOut sm val 0 n s = some ((), t)
    | .swapIn a => ∃ p, swapIn sm val a s = some (p, t)

/-- The steps, computed. -/
def userExec (sm : Manager) (mm : Nat) (s : State M) (e : Event) :
    Option (State M) :=
  match s.mms mm with
  | none => none
  | some val =>
      match e with
      | .load a v => if load s val.pgdir a = some v then some s else none
      | .store a v => store s val.pgdir a v
      | .fault a =>
          if ¬ Permits s val.pgdir a pteR ∨ ¬ Permits s val.pgdir a pteW then
            match doPgfault sm mm a s with
            | some (true, t) => some t
            | _ => none
          else none
      | .swapOut n => (swapOut sm val 0 n s).map (·.2)
      | .swapIn a => (swapIn sm val a s).map (·.2)

theorem userExec_step {sm : Manager} {mm : Nat} {s t : State M} {e : Event}
    (h : userExec sm mm s e = some t) : UserStep sm mm s e t := by
  unfold userExec at h
  cases hm : s.mms mm with
  | none =>
      rw [hm] at h
      cases h
  | some val =>
      rw [hm] at h
      refine ⟨val, hm, ?_⟩
      cases e with
      | load a v =>
          dsimp only at h
          split at h
          case isTrue hload => exact ⟨hload, (Option.some.inj h).symm⟩
          case isFalse => cases h
      | store a v => exact h
      | fault a =>
          dsimp only at h
          split at h
          case isTrue hno =>
              refine ⟨hno, ?_⟩
              split at h
              case h_1 u hcall =>
                  rw [hcall, ← Option.some.inj h]
              case h_2 => cases h
          case isFalse => cases h
      | swapOut n =>
          obtain ⟨r, hcall, rfl⟩ := Option.map_eq_some_iff.1 h
          exact hcall
      | swapIn a =>
          obtain ⟨r, hcall, rfl⟩ := Option.map_eq_some_iff.1 h
          exact ⟨r.1, hcall⟩

/-- Events one after the other. -/
def play (sm : Manager) (mm : Nat) : List Event → State M → Option (State M)
  | [], s => some s
  | e :: es, s => (userExec sm mm s e).bind (play sm mm es)

theorem run_of_play {sm : Manager} {mm : Nat} {es : List Event}
    {s t : State M} (h : play sm mm es s = some t) :
    Run (UserStep sm mm) s es t := by
  induction es generalizing s with
  | nil =>
      cases h
      exact .nil t
  | cons e es ih =>
      obtain ⟨u, hstep, hrest⟩ := Option.bind_eq_some_iff.1 h
      exact .cons (userExec_step hstep) (ih hrest)

/-- What an event stores at an address. -/
def Event.stored (a : Nat) : Event → Option Nat
  | .store a' v => if a' = a then some v else none
  | _ => none

/-- The value most recently stored at an address. -/
def lastStore (a : Nat) : List Event → Option Nat
  | [] => none
  | e :: es => (lastStore a es).or (e.stored a)

end Ucore.Swap
