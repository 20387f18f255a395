/-
lab3 kern/mm/pmm.c, kern/mm/swap.c and kern/fs/swapfs.c: single pages,
page tables and the moves of a page to the swap device and back.

An allocation of one page that finds none evicts pages until there is one,
so `alloc_page` does not return `NULL` and the tests of its result do not
appear. The swap device is an array in memory whose reads and writes return
0 (kern/driver/ide.c).
-/
import Ucore.Swap.Manager

namespace Ucore.Swap

variable {M : PmmManager}

-- ============================================================ swapfs

/-- `SECTSIZE`. -/
def sectsize : Nat := 512
/-- `MAX_DISK_NSECS`. -/
def maxDiskNsecs : Nat := 56
/-- `max_swap_offset`, as `swapfs_init` sets it. -/
def maxSwapOffset : Nat := maxDiskNsecs / (pgsize / sectsize)

/-- `swap_offset`. -/
def swapOffset (entry : Nat) : Option Nat :=
  let offset := entry >>> 8
  if 0 < offset ∧ offset < maxSwapOffset then some offset else none

/-- `swapfs_read`: the slot's contents come to a page. -/
def swapfsRead (entry page : Nat) : Call (State M) Nat := do
  let offset ← Call.ofOption (swapOffset entry)
  Call.modify fun s =>
    { s with mem := Function.update s.mem page (s.disk offset) }
  pure 0

/-- `swapfs_write`: a page's contents go to the slot. -/
def swapfsWrite (entry page : Nat) : Call (State M) Nat := do
  let offset ← Call.ofOption (swapOffset entry)
  Call.modify fun s =>
    { s with disk := Function.update s.disk offset (s.mem page) }
  pure 0

-- =========================================================== get_pte

/-- The first level of `get_pte`: whether there is a directory for the
address, which is allocated when `create` is set. -/
def getDir (alloc : Call (State M) Nat) (pgdir la : Nat) (create : Bool) :
    Call (State M) Bool := do
  let s ← Call.get
  if (s.dirs pgdir (pdx1 la)).isSome then pure true
  else if create then do
    let page ← alloc
    Call.modify (setPageRef page 1)
    Call.modify (enterDir pgdir (pdx1 la) page)
    pure true
  else pure false

/-- The second level: whether there is a page table. -/
def getTable (alloc : Call (State M) Nat) (pgdir la : Nat) (create : Bool) :
    Call (State M) Bool := do
  let s ← Call.get
  if (s.tables pgdir (pdx1 la) (pdx0 la)).isSome then pure true
  else if create then do
    let page ← alloc
    Call.modify (setPageRef page 1)
    Call.modify (enterTable pgdir (pdx1 la) (pdx0 la) page)
    pure true
  else pure false

/-- `get_pte`, over the allocator it calls: the slot of the address, or
`NULL`. -/
def getPte (alloc : Call (State M) Nat) (pgdir la : Nat) (create : Bool) :
    Call (State M) (Option Slot) := do
  if ← getDir alloc pgdir la create then
    if ← getTable alloc pgdir la create then pure (some (slotOf la))
    else pure none
  else pure none

/-- `get_pte` without `create`, which allocates nothing. -/
def findPte (pgdir la : Nat) : Call (State M) (Option Slot) :=
  getPte Call.panic pgdir la false

-- ========================================================== swap_out

/-- `free_page`: the manager's `free_pages` clears the reference count. -/
def freePage (page : Nat) : Call (State M) Unit :=
  Call.modify fun s =>
    { setPageRef page 0 s with pmm := M.freePages s.pmm page }

/-- The entry under which a page is found on the swap device:
`(page->pra_vaddr/PGSIZE+1)<<8`. -/
def swapEntry (vaddr : Nat) : Nat := (vaddr / pgsize + 1) <<< 8

/-- What `swap_out` does with a victim. -/
def swapOutPage (sm : Manager) (mm : MmStruct) (page : Nat) :
    Call (State M) Unit := do
  let s ← Call.get
  let v := s.praVaddr page
  let ptep ← findPte mm.pgdir v
  let x ← Call.ofOption ptep
  let s ← Call.get
  Call.assert (hasFlag (s.pte mm.pgdir x) pteV)
  let r ← swapfsWrite (swapEntry v) page
  if r ≠ 0 then mapSwappable sm mm page
  else do
    Call.modify (setPte mm.pgdir x (swapEntry v))
    freePage page

/-- A round of the loop of `swap_out`. -/
def swapOutOne (sm : Manager) (mm : MmStruct) (inTick : Nat) :
    Call (State M) Unit := do
  let victim ← swapOutVictim sm mm inTick
  let page ← Call.ofOption victim
  swapOutPage sm mm page

/-- `swap_out`. A round whose write fails counts like any other, so `n`
rounds are made. -/
def swapOut (sm : Manager) (mm : MmStruct) (inTick : Nat) :
    (n : Nat) → Call (State M) Unit
  | 0 => pure ()
  | n + 1 => do
      swapOutOne sm mm inTick
      swapOut sm mm inTick n

/-- What a pointer to an `mm_struct` leads to. -/
def derefMm (mm : Option Nat) : Call (State M) MmStruct := do
  let s ← Call.get
  Call.ofOption (mm.bind s.mms)

/-- The loop of `alloc_pages`, for one page. -/
def allocLoop (sm : Manager) : (fuel : Nat) → Call (State M) Nat
  | 0 => Call.panic
  | fuel + 1 => do
      let s ← Call.get
      match M.allocPages s.pmm with
      | some (page, pmm) => do
          Call.modify fun s => { s with pmm := pmm }
          pure page
      | none => do
          let mm ← derefMm s.checkMm
          swapOut sm mm 0 1
          allocLoop sm fuel

/-- `alloc_page`. A `swap_out` that returns has freed a page, which the
second round finds (`allocLoop_two`). -/
def allocPage (sm : Manager) : Call (State M) Nat := allocLoop sm 2

/-- `swap_in`: the page into which the contents were read. -/
def swapIn (sm : Manager) (mm : MmStruct) (addr : Nat) :
    Call (State M) Nat := do
  let result ← allocPage sm
  let ptep ← findPte mm.pgdir addr
  let x ← Call.ofOption ptep
  let s ← Call.get
  let r ← swapfsRead (s.pte mm.pgdir x) result
  if r ≠ 0 then do
    Call.assert (r ≠ 0)
    pure result
  else pure result

-- ======================================= page_remove and page_insert

/-- `page_remove_pte`. -/
def pageRemovePte (pgdir : Nat) (x : Slot) : Call (State M) Unit := do
  let s ← Call.get
  let pte := s.pte pgdir x
  if hasFlag pte pteV then do
    let page ← Call.ofOption (Mm.pte2page pte)
    Call.modify (setPageRef page (s.ref page - 1))
    if s.ref page - 1 = 0 then freePage page else pure ()
    Call.modify (setPte pgdir x 0)
  else pure ()

/-- `page_remove`. -/
def pageRemove (pgdir la : Nat) : Call (State M) Unit := do
  match ← findPte pgdir la with
  | none => pure ()
  | some x => pageRemovePte pgdir x

/-- What `page_insert` does with the entry that it found. -/
def replacePte (pgdir page : Nat) (x : Slot) : Call (State M) Unit := do
  let s ← Call.get
  let pte := s.pte pgdir x
  if hasFlag pte pteV then do
    let p ← Call.ofOption (Mm.pte2page pte)
    if p = page then Call.modify (setPageRef page (s.ref page - 1))
    else pageRemovePte pgdir x
  else pure ()

/-- `page_insert`. -/
def pageInsert (sm : Manager) (pgdir page la perm : Nat) :
    Call (State M) Unit := do
  let ptep ← getPte (allocPage sm) pgdir la true
  let x ← Call.ofOption ptep
  let s ← Call.get
  Call.modify (setPageRef page (s.ref page + 1))
  replacePte pgdir page x
  Call.modify (setPte pgdir x (pteCreate page (pteV ||| perm)))

/-- `pgdir_alloc_page`. -/
def pgdirAllocPage (sm : Manager) (pgdir la perm : Nat) :
    Call (State M) Nat := do
  let page ← allocPage sm
  pageInsert sm pgdir page la perm
  let s ← Call.get
  let mm ← derefMm s.checkMm
  mapSwappable sm mm page
  Call.modify (setPraVaddr page la)
  let s ← Call.get
  Call.assert (s.ref page = 1)
  pure page

end Ucore.Swap
