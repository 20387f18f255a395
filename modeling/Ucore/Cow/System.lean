/-
What fork, loads, stores and exits mean: every process has memory of its
own, and a child starts with a copy of its parent's.

The copy-on-write system: processes with address spaces of their own on one
machine. A step is one call or one user instruction; interrupts are off
inside the kernel, so calls do not overlap.
-/
import Ucore.Cow.Proc
import Ucore.Mm.Proofs.PageTable
import Ucore.Mm.Proofs.Vmm
import Ucore.Mm.Proofs.PageRef
import Mathlib.Logic.Function.Basic

namespace Ucore.Cow

/-- Fork of `p` with child `q`, a load and what it gives (`none` is a
fault), a store, an exit. -/
inductive Label where
  | fork (p q : Nat)
  | load (p va : Nat) (o : Option Nat)
  | store (p va b : Nat)
  | exit (p : Nat)

/-- The memory of a process: what a load gives, and where it may store. -/
structure Image where
  byte : Nat → Option Nat
  writable : Nat → Prop

namespace Eager

/-- The processes and their memory. -/
abbrev State := Nat → Option Image

/-- A step of a system that copies all pages at fork. -/
inductive Step : State → Label → State → Prop
  | fork {σ : State} {p q : Nat} {im : Image} :
      σ p = some im → σ q = none →
      Step σ (.fork p q) (Function.update σ q (some im))
  | load {σ : State} {p va : Nat} {im : Image} :
      σ p = some im → Step σ (.load p va (im.byte va)) σ
  | store {σ : State} {p va b : Nat} {im : Image} :
      σ p = some im → im.writable va →
      Step σ (.store p va b) (Function.update σ p
        (some { im with byte := Function.update im.byte va (some b) }))
  | exit {σ : State} {p : Nat} {im : Image} :
      σ p = some im → Step σ (.exit p) (Function.update σ p none)

/-- A store is not seen by other processes. -/
theorem Step.store_other {σ σ' : State} {p q va b : Nat}
    (h : Step σ (.store p va b) σ') (hne : q ≠ p) : σ' q = σ q := by
  cases h with
  | store _ _ => exact Function.update_of_ne hne _ _

end Eager

open Mm

variable {M : PmmManager}

/-- The machine and the `mm` of each process. -/
structure State (M : PmmManager) where
  machine : Machine M
  procs : Nat → Option MmStruct

/-- The call returns `r` once its loops get the fuel they need. -/
def Returns {α : Type} (call : Nat → Option α) (r : α) : Prop :=
  ∃ fuel, call fuel = some r

/-- The address lies in an area with `VM_WRITE`. -/
def Writable (mm : MmStruct) (va : Nat) : Prop :=
  ∃ vma ∈ mm.mmapList, vma.Has va ∧ hasFlag vma.vmFlags vmWrite

/-- A fork that succeeds, a load, a store into a writable area, an exit. -/
inductive Step : State M → Label → State M → Prop
  | fork {c : State M} {p q : Nat} {mm child : MmStruct} {s' : Machine M} :
      c.procs p = some mm → c.procs q = none →
      Returns (fun fuel => copyMm fuel c.machine mm) (some child, s') →
      Step c (.fork p q) ⟨s', Function.update c.procs q (some child)⟩
  | load {c : State M} {p va : Nat} {mm : MmStruct} :
      c.procs p = some mm → va < usertop →
      Step c (.load p va (userLoad c.machine mm.pgdir va)) c
  | store {c : State M} {p va b : Nat} {mm mm' : MmStruct}
      {s' : Machine M} :
      c.procs p = some mm → Writable mm va → b < 256 →
      store c.machine mm va b = some (mm', s') →
      Step c (.store p va b) ⟨s', Function.update c.procs p (some mm')⟩
  | exit {c : State M} {p : Nat} {mm : MmStruct} {s' : Machine M} :
      c.procs p = some mm → exitMm c.machine mm = some s' →
      Step c (.exit p) ⟨s', Function.update c.procs p none⟩

-- ====================================================== what is seen

/-- The memory of a process as its loads and its areas show it. -/
def image (s : Machine M) (mm : MmStruct) : Image where
  byte va := if va < usertop then userLoad s mm.pgdir va else none
  writable := Writable mm

/-- The processes and the memory they see. -/
def view (c : State M) : Eager.State :=
  fun p => (c.procs p).map (image c.machine)

-- =================================================== where it starts

/-- A process whose areas are fully mapped for the user, the writable ones
readable too. -/
structure Space (roots : Finset Nat) (s : Machine M) (mm : MmStruct) :
    Prop where
  count : mm.mmCount = 1
  sorted : Sorted mm.mmapList
  ok : ∀ vma ∈ mm.mmapList, VmaOk vma
  cache : ∀ vma ∈ mm.mmapCache, vma ∈ mm.mmapList
  full : ∀ va, InVmas mm.mmapList va →
    leafAt roots s (slotOf mm.pgdir va) ≠ none
  inside : ∀ x ∈ slots roots, x.1 = mm.pgdir → leafAt roots s x ≠ none →
    SlotAt mm.pgdir (InVmas mm.mmapList) x
  user : ∀ va, InVmas mm.mmapList va →
    hasFlag (pteAt roots s (slotOf mm.pgdir va)) pteU
  read : ∀ va, Writable mm va →
    hasFlag (pteAt roots s (slotOf mm.pgdir va)) pteR

/-- Processes with address spaces of their own on a machine whose reference
counts are right. -/
structure Spaces (roots : Finset Nat) (lost : Set Nat) (c : State M) :
    Prop where
  refs : RefInv roots lost noHold c.machine
  root : ∀ {p mm}, c.procs p = some mm → mm.pgdir ∈ roots
  root_inj : ∀ {p q mm mm'}, c.procs p = some mm → c.procs q = some mm' →
    mm.pgdir = mm'.pgdir → p = q
  space : ∀ {p mm}, c.procs p = some mm → Space roots c.machine mm

/-- At the start no page is mapped twice. -/
structure Start (roots : Finset Nat) (c : State M) : Prop where
  spaces : Spaces roots ∅ c
  once : ∀ {x y f}, x ∈ slots roots → y ∈ slots roots →
    leafAt roots c.machine x = some f → leafAt roots c.machine y = some f →
    x = y

/-- Exits are never refused; a store is not while a page is free, and a fork
while three are for each page of the areas, and one more. -/
structure Progress (c : State M) : Prop where
  exit : ∀ {p mm}, c.procs p = some mm → ∃ c', Step c (.exit p) c'
  store : ∀ {p mm va b}, c.procs p = some mm → Writable mm va → b < 256 →
    c.machine.free.Nonempty → ∃ c', Step c (.store p va b) c'
  fork : ∀ {p q mm}, c.procs p = some mm → c.procs q = none →
    3 * pages mm.mmapList < c.machine.free.card → ∃ c', Step c (.fork p q) c'

end Ucore.Cow
