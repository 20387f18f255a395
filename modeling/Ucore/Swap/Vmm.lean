/-
lab3 kern/mm/vmm.c: `mm_create` and `do_pgfault`, and the accesses that
fault.
-/
import Ucore.Swap.Paging

namespace Ucore.Swap

open Mm (Vma vmWrite findVma)

variable {M : PmmManager}

/-- `mm_create`, with the root directory and the areas that the caller
gives the new `mm_struct`. `kmalloc` takes a page for it. -/
def mmCreate (sm : Manager) (pgdir : Nat) (mmapList : List Vma) :
    Call (State M) Nat := do
  let mm ← allocPage sm
  let head ← initMm
  let val : MmStruct :=
    { mmapList := mmapList, mmapCache := none, pgdir := pgdir,
      mapCount := mmapList.length, mmCount := 0, smPriv := some head }
  Call.modify fun s => { s with mms := Function.update s.mms mm (some val) }
  pure mm

/-- `perm` of `do_pgfault`. -/
def faultPerm (vma : Vma) : Nat :=
  if hasFlag vma.vmFlags vmWrite then pteU ||| (pteR ||| pteW) else pteU

/-- What `do_pgfault` does once it has the entry: an empty one is given a
fresh page, any other is taken for a swap entry. -/
def resolveFault (sm : Manager) (mm : MmStruct) (x : Slot) (addr perm : Nat) :
    Call (State M) Unit := do
  let s ← Call.get
  if s.pte mm.pgdir x = 0 then do
    let _ ← pgdirAllocPage sm mm.pgdir addr perm
    pure ()
  else do
    let page ← swapIn sm mm addr
    pageInsert sm mm.pgdir page addr perm
    mapSwappable sm mm page
    Call.modify (setPraVaddr page addr)

/-- The `mm_struct` after `find_vma` cached what it found. -/
def MmStruct.found (val : MmStruct) (addr : Nat) : MmStruct :=
  { val with toMmStruct := (findVma val.toMmStruct addr).2 }

/-- `do_pgfault`; `false` is `-E_INVAL`, `true` is 0. -/
def doPgfault (sm : Manager) (mm : Nat) (addr : Nat) :
    Call (State M) Bool := do
  let val ← derefMm (some mm)
  let val' := val.found addr
  Call.modify fun s => { s with mms := Function.update s.mms mm (some val') }
  match (findVma val.toMmStruct addr).1 with
  | none => pure false
  | some vma =>
      if addr < vma.vmStart then pure false
      else do
        let addr' := rounddown addr pgsize
        let ptep ← getPte (allocPage sm) val'.pgdir addr' true
        let x ← Call.ofOption ptep
        resolveFault sm val' x addr' (faultPerm vma)
        pure true

end Ucore.Swap
