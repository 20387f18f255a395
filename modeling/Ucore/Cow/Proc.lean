/-
cow/proc.c: the address spaces of processes, from fork to exit, and the
loads and stores of user programs.
-/
import Ucore.Cow.Vmm
import Ucore.Lib.Bytes

namespace Ucore.Cow

open Mm

variable {M : PmmManager}

-- ===================================================== fork and exit

/-- `boot_pgdir`, as kern/init/entry.S lays it out: its last entry maps
the kernel, all others are 0. -/
def bootPgdir (i : Nat) : Nat :=
  if i = 511 then (0x80000 <<< 10) ||| 0xcf else 0

/-- `setup_pgdir`: the page directory, a copy of `boot_pgdir`. -/
def setupPgdir (s : Machine M) : Option (Nat × Machine M) :=
  match allocPage s with
  | none => none
  | some (page, s) =>
      some (page, { s with mem := Function.update s.mem page bootPgdir })

/-- `put_pgdir`. -/
def putPgdir (s : Machine M) (mm : MmStruct) : Machine M :=
  freePage s mm.pgdir

/-- `copy_mm` of a process that has an address space of its own; the inner
`none` is `-E_NO_MEM`. -/
def copyMm (fuel : Nat) (s : Machine M) (oldmm : MmStruct) :
    Option (Option MmStruct × Machine M) :=
  match setupPgdir s with
  | none => some (none, s)
  | some (pgdir, s) =>
      match dupMmap fuel s (mmCreate pgdir) oldmm with
      | none => none
      | some (true, mm, s) =>
          some (some { mm with mmCount := mm.mmCount + 1 }, s)
      | some (false, mm, s) =>
          match exitMmap s mm with
          | none => none
          | some s => some (none, putPgdir s mm)

/-- What `do_exit` does to the address space. -/
def exitMm (s : Machine M) (mm : MmStruct) : Option (Machine M) :=
  let mm := { mm with mmCount := mm.mmCount - 1 }
  if mm.mmCount = 0 then
    match exitMmap s mm with
    | none => none
    | some s => some (putPgdir s mm)
  else some s

-- ============================================= user loads and stores

/-- The page table entry the processor finds for an address. -/
def walk (s : Machine M) (pgdir va : Nat) : Nat :=
  match frameOf (s.mem pgdir (pdx1 va)) with
  | none => 0
  | some pd0 =>
      match frameOf (s.mem pd0 (pdx0 va)) with
      | none => 0
      | some pt => s.mem pt (ptx va)

/-- The byte of a frame at a page offset. -/
def frameByte (s : Machine M) (f off : Nat) : Nat :=
  getByte (s.mem f (off / 8)) (off % 8)

/-- A load by the user program; `none` is a page fault. -/
def userLoad (s : Machine M) (pgdir va : Nat) : Option Nat :=
  let pte := walk s pgdir va
  if hasFlag pte pteU ∧ hasFlag pte pteR then
    (frameOf pte).map fun f => frameByte s f (pgoff va)
  else none

/-- A store by the user program; `none` is a page fault. -/
def userStore (s : Machine M) (pgdir va b : Nat) : Option (Machine M) :=
  let pte := walk s pgdir va
  if hasFlag pte pteU ∧ hasFlag pte pteW then
    (frameOf pte).map fun f =>
      let w := setByte (s.mem f (pgoff va / 8)) (pgoff va % 8) b
      s.setWord (f, pgoff va / 8) w
  else none

/-- `CAUSE_STORE_PAGE_FAULT`. -/
def causeStorePageFault : Nat := 0xf

/-- A store instruction: if it faults and the fault is resolved, it is
executed again. `none` is a panic, a fault that is not resolved, or a
store that faults again. -/
def store (s : Machine M) (mm : MmStruct) (va b : Nat) :
    Option (MmStruct × Machine M) :=
  match userStore s mm.pgdir va b with
  | some s => some (mm, s)
  | none =>
      match doPgfault s mm causeStorePageFault va with
      | some (.ok, mm, s) =>
          (userStore s mm.pgdir va b).map fun s => (mm, s)
      | _ => none

end Ucore.Cow
