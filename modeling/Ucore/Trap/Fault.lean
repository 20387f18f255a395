/-
lab5 kern/trap/trap.c and `do_pgfault` of kern/mm/vmm.c: page faults of
user programs.

`swap_init` has run, so `swap_init_ok` is 1, and `check_swap` has cleared
`check_mm_struct` again. An allocation that finds no page then has
`swap_out` take a victim from `check_mm_struct`, a null pointer, so no
allocation returns `NULL`: it gives a page or panics, and the tests for
`NULL` do not appear. The page tables, the pages and the `page_insert` they
are changed by are those of the machine; the victims of the swap manager
are its list, whose head a process's `mm_struct` points to.

A call that panics or follows a null pointer returns nothing. Left out are
the texts the handlers print, the exceptions that run a system call, and
`need_resched`, which only lets another process run first.

lab8 kern/mm/vmm.c: `do_pgfault`. What reads a page in from the swap device
is commented out there, and what is left of that branch stores to
`page->pra_vaddr` with `page` still `NULL`: it does not return. The rest is
that of lab5.

cow/vmm.c: `do_pgfault` of the copy-on-write kernel, as user programs meet
it: with swapping on and without a `check_mm_struct`.
-/
import Ucore.Swap.Vmm
import Ucore.Cow.Proc

namespace Ucore.Trap

open Ucore.Ring
open Mm (Machine Ret vmWrite findVma)
open Swap (MmStruct Link swapOffset)

variable {M : PmmManager}

/-- `PF_EXITING`. -/
def pfExiting : Nat := 0x1

/-- `struct proc_struct`: what a fault reads of it. -/
structure Proc where
  pid : Nat
  mm : Option MmStruct
  flags : Nat

structure Kernel (M : PmmManager) where
  machine : Machine M
  /-- `page->pra_vaddr`. -/
  praVaddr : Nat → Nat
  /-- The `pra_page_link` of every page, and `pra_list_head`. -/
  links : Links Link
  /-- The words of each slot of the swap device. -/
  disk : Nat → Nat → Nat
  /-- `check_mm_struct`. -/
  checkMm : Option MmStruct
  current : Option Proc

-- ================================================== pages and tables

/-- A function of kern/mm/pmm.c as a call. -/
def onMachine {α : Type} (f : Machine M → Option (α × Machine M)) :
    Call (Kernel M) α := fun k =>
  match f k.machine with
  | none => none
  | some (a, s) => some (a, { k with machine := s })

/-- `alloc_page`. -/
def allocPage : Call (Kernel M) Nat := onMachine Mm.allocPage

/-- `get_pte`. -/
def getPte (pgdir la : Nat) (create : Bool) : Call (Kernel M) (Nat × Nat) := do
  let ptep ← onMachine fun s => Mm.getPte s pgdir la create
  Call.ofOption ptep

/-- `page_insert`. -/
def pageInsert (pgdir page la perm : Nat) : Call (Kernel M) Unit := do
  let ok ← onMachine fun s => Mm.pageInsert s pgdir page la perm
  Call.assert (ok = true)

/-- `pgdir_alloc_page`: without a `check_mm_struct` the page does not
become swappable. -/
def pgdirAllocPage (pgdir la perm : Nat) : Call (Kernel M) Nat := do
  let page ← allocPage
  pageInsert pgdir page la perm
  let k ← Call.get
  match k.checkMm with
  | none => pure page
  | some mm => do
      let head ← Call.ofOption mm.smPriv
      Call.modify fun k =>
        { k with
          links := listAddBefore k.links head (.page page),
          praVaddr := Function.update k.praVaddr page la }
      Call.assert (Mm.pageRef k.machine page = 1)
      pure page

-- ============================================================== swap

/-- `swapfs_read`: the slot's contents come to a page. -/
def swapfsRead (entry page : Nat) : Call (Kernel M) Nat := do
  let offset ← Call.ofOption (swapOffset entry)
  Call.modify fun k =>
    let mem := Function.update k.machine.mem page (k.disk offset)
    { k with machine := { k.machine with mem := mem } }
  pure 0

/-- `swap_in`: the page into which the contents were read. -/
def swapIn (mm : MmStruct) (addr : Nat) : Call (Kernel M) Nat := do
  let result ← allocPage
  let ptep ← getPte mm.pgdir addr false
  let k ← Call.get
  let r ← swapfsRead (k.machine.word ptep) result
  if r ≠ 0 then do
    Call.assert (r ≠ 0)
    pure result
  else pure result

/-- `swap_map_swappable`, which is `_fifo_map_swappable`. -/
def swapMapSwappable (mm : MmStruct) (page : Nat) : Call (Kernel M) Unit := do
  let head ← Call.ofOption mm.smPriv
  Call.modify fun k =>
    { k with links := listAddBefore k.links head (.page page) }

-- ======================================================== do_pgfault

/-- `perm` of `do_pgfault`. -/
def faultPerm (vma : Mm.Vma) : Nat :=
  if hasFlag vma.vmFlags vmWrite then pteU ||| readWrite else pteU

/-- What `do_pgfault` does once it has the entry: an empty one is given a
fresh page, any other is taken for a swap entry. -/
def resolveFault (mm : MmStruct) (ptep : Nat × Nat) (addr perm : Nat) :
    Call (Kernel M) Unit := do
  let k ← Call.get
  if k.machine.word ptep = 0 then do
    let _ ← pgdirAllocPage mm.pgdir addr perm
    pure ()
  else do
    let page ← swapIn mm addr
    pageInsert mm.pgdir page addr perm
    swapMapSwappable mm page
    Call.modify fun k =>
      { k with praVaddr := Function.update k.praVaddr page addr }

/-- `do_pgfault`: what it returns, and the `mm_struct` with what `find_vma`
cached. It does not read `error_code`. -/
def doPgfault (mm : MmStruct) (addr : Nat) : Call (Kernel M) (Ret × MmStruct) :=
  let mm' := mm.found addr
  match (findVma mm.toMmStruct addr).1 with
  | none => pure (.inval, mm')
  | some vma =>
      if addr < vma.vmStart then pure (.inval, mm')
      else do
        let perm := faultPerm vma
        let addr := rounddown addr pgsize
        let ptep ← getPte mm'.pgdir addr true
        resolveFault mm' ptep addr perm
        pure (.ok, mm')

/-- `pgfault_handler`. -/
def pgfaultHandler (tval : Nat) : Call (Kernel M) Ret := do
  let k ← Call.get
  match k.checkMm with
  | some mm => do
      Call.assert (k.current.map Proc.pid = some 0)
      let r ← doPgfault mm tval
      Call.modify fun k => { k with checkMm := some r.2 }
      pure r.1
  | none => do
      let current ← Call.ofOption k.current
      let mm ← Call.ofOption current.mm
      let r ← doPgfault mm tval
      Call.modify fun k =>
        { k with current := some { current with mm := some r.2 } }
      pure r.1

-- ============================================================== trap

/-- `tf->cause`, for the exceptions that run no system call. -/
inductive Cause
  | misalignedFetch
  | fetchAccess
  | illegalInstruction
  | misalignedLoad
  | loadAccess
  | misalignedStore
  | storeAccess
  | fetchPageFault
  | loadPageFault
  | storePageFault
deriving DecidableEq

/-- The branch of `exception_handler` that handles a page fault. -/
def handlePgfault (tval : Nat) : Call (Kernel M) Unit := do
  let ret ← pgfaultHandler tval
  if ret ≠ .ok then Call.panic else pure ()

/-- `exception_handler`. -/
def exceptionHandler (cause : Cause) (tval : Nat) : Call (Kernel M) Unit :=
  match cause with
  | .misalignedFetch => pure ()
  | .fetchAccess => pure ()
  | .illegalInstruction => pure ()
  | .misalignedLoad => pure ()
  | .loadAccess => handlePgfault tval
  | .misalignedStore => Call.panic
  | .storeAccess => handlePgfault tval
  | .fetchPageFault => pure ()
  | .loadPageFault => handlePgfault tval
  | .storePageFault => handlePgfault tval

/-- How a trap from user mode ends. -/
inductive Outcome
  /-- The instruction is executed again. -/
  | resumed
  /-- `do_exit(-E_KILLED)`. -/
  | exited
deriving DecidableEq

/-- `trap`, from user mode. -/
def trap (cause : Cause) (tval : Nat) : Call (Kernel M) Outcome := do
  exceptionHandler cause tval
  let k ← Call.get
  let current ← Call.ofOption k.current
  if hasFlag current.flags pfExiting then pure .exited else pure .resumed

-- ===================================================== the processor

/-- The addresses that Sv39 translates. -/
def Canonical (va : Nat) : Prop :=
  va < 2 ^ 38 ∨ 2 ^ 64 - 2 ^ 38 ≤ va ∧ va < 2 ^ 64

instance (va : Nat) : Decidable (Canonical va) :=
  inferInstanceAs (Decidable (_ ∨ _))

/-- The entry under which a user program sees an address. The last entry of
a root directory maps the kernel, without `PTE_U`. -/
def userEntry (s : Machine M) (pgdir va : Nat) : Nat :=
  if Canonical va ∧ pdx1 va ≠ 511 then Cow.walk s pgdir va else 0

/-- The flag the access needs, for the causes that are page faults. -/
def accessFlag : Cause → Nat
  | .fetchPageFault => pteX
  | .storePageFault => pteW
  | _ => pteR

/-- The entry permits the access of a user program. -/
def Permits (cause : Cause) (entry : Nat) : Prop :=
  hasFlag entry pteV ∧ hasFlag entry pteU ∧ hasFlag entry (accessFlag cause)

instance (cause : Cause) (entry : Nat) : Decidable (Permits cause entry) :=
  inferInstanceAs (Decidable (_ ∧ _))

/-- A process in user mode: it has an address space. -/
def InUser (k : Kernel M) (proc : Proc) (mm : MmStruct) : Prop :=
  k.checkMm = none ∧ k.current = some proc ∧ proc.mm = some mm

/-- The trap ended well: the process alone was ended, or it is resumed with
a mapping that permits the access. -/
def Handled (k : Kernel M) (mm : MmStruct) (cause : Cause) (tval : Nat) :
    Prop :=
  ∃ outcome k', trap cause tval k = some (outcome, k')
    ∧ (outcome = .resumed →
        Permits cause (userEntry k'.machine mm.pgdir tval))

end Ucore.Trap

namespace Ucore.Trap.Lab8

open Mm (Ret findVma)
open Swap (MmStruct)

variable {M : PmmManager}

/-- What `do_pgfault` does once it has the entry. -/
def resolveFault (mm : MmStruct) (ptep : Nat × Nat) (addr perm : Nat) :
    Call (Kernel M) Unit := do
  let k ← Call.get
  if k.machine.word ptep = 0 then do
    let _ ← pgdirAllocPage mm.pgdir addr perm
    pure ()
  else Call.panic

/-- `do_pgfault`: what it returns, and the `mm_struct` with what `find_vma`
cached. It does not read `error_code`. -/
def doPgfault (mm : MmStruct) (addr : Nat) : Call (Kernel M) (Ret × MmStruct) :=
  let mm' := mm.found addr
  match (findVma mm.toMmStruct addr).1 with
  | none => pure (.inval, mm')
  | some vma =>
      if addr < vma.vmStart then pure (.inval, mm')
      else do
        let perm := faultPerm vma
        let addr := rounddown addr pgsize
        let ptep ← getPte mm'.pgdir addr true
        resolveFault mm' ptep addr perm
        pure (.ok, mm')

end Ucore.Trap.Lab8

namespace Ucore.Trap.CowFault

open Mm (Ret findVma)
open Swap (MmStruct)

variable {M : PmmManager}

/-- A write to a valid entry that lacks `PTE_W`: the only mapping of a page
is made writable, a page with more references is copied. -/
def copyOnWrite (mm : MmStruct) (ptep : Nat × Nat) (addr perm : Nat) :
    Call (Kernel M) Unit := do
  let k ← Call.get
  let pte := k.machine.word ptep
  let page ← Call.ofOption (Mm.pte2page pte)
  if Mm.pageRef k.machine page = 1 then
    Call.modify fun k =>
      { k with machine := k.machine.setWord ptep (pte ||| pteW) }
  else do
    let npage ← pgdirAllocPage mm.pgdir addr perm
    Call.modify fun k =>
      { k with machine := Mm.copyPage k.machine npage page }
    pageInsert mm.pgdir npage addr (perm ||| pteW)

/-- What `do_pgfault` does once it has the entry; what is not valid is
resolved as in kern/mm/vmm.c. -/
def resolveFault (errorCode : Nat) (mm : MmStruct) (ptep : Nat × Nat)
    (addr perm : Nat) : Call (Kernel M) Unit := do
  let k ← Call.get
  if hasFlag (k.machine.word ptep) pteV then
    if hasFlag errorCode 2 ∧ ¬ hasFlag (k.machine.word ptep) pteW then
      copyOnWrite mm ptep addr perm
    else pure ()
  else Trap.resolveFault mm ptep addr perm

/-- `do_pgfault`: what it returns, and the `mm_struct` with what `find_vma`
cached. -/
def doPgfault (mm : MmStruct) (errorCode addr : Nat) :
    Call (Kernel M) (Ret × MmStruct) :=
  let mm' := mm.found addr
  match (findVma mm.toMmStruct addr).1 with
  | none => pure (.inval, mm')
  | some vma =>
      if addr < vma.vmStart then pure (.inval, mm')
      else do
        let perm := faultPerm vma
        let addr := rounddown addr pgsize
        let ptep ← getPte mm'.pgdir addr true
        resolveFault errorCode mm' ptep addr perm
        pure (.ok, mm')

end Ucore.Trap.CowFault
