/-
lab3: the memory that the swap manager and the page fault handler share.

Pages are named by their frame number and an `mm_struct` by the page that
`kmalloc` gave it. The page tables are held by what `get_pte` sees of them:
for each root directory the tables there are and the entries of each. A
page's contents are its bytes, and so are those of a slot of the swap
device. `swap_init` has run, so `swap_init_ok` is 1. A call that panics or
follows a null pointer returns nothing. The TLB is not modelled.

lab3 kern/mm/swap_fifo.c and kern/mm/swap_lru.c: the two page replacement
algorithms that keep the swappable pages in the list `pra_list_head`.
`page->visited` is set by the second and read by neither.
-/
import Ucore.Libs.List
import Ucore.Lib.Call
import Ucore.Mm.Vmm

namespace Ucore.Swap

open Ucore.Ring
open Mm (Vma)

/-- A list entry of the page replacement algorithm: `pra_list_head`, or the
`pra_page_link` of a page. -/
inductive Link
  | praListHead
  | page (p : Nat)
deriving DecidableEq

/-- `le2page(le, pra_page_link)`; the head lies in no page. -/
def le2page : Link → Option Nat
  | .praListHead => none
  | .page p => some p

/-- `struct mm_struct`, with the private data of the swap manager, which is
a list head or `NULL`. -/
structure MmStruct extends Mm.MmStruct where
  smPriv : Option Link

/-- The indices that lead to an entry below a root directory. -/
abbrev Slot := Nat × Nat × Nat

/-- The indices of an address. -/
def slotOf (la : Nat) : Slot := (pdx1 la, pdx0 la, ptx la)

structure State (M : PmmManager) where
  pmm : M.State
  /-- `page->ref`. -/
  ref : Nat → Int
  /-- `page->pra_vaddr`. -/
  praVaddr : Nat → Nat
  /-- The `pra_page_link` of every page, and `pra_list_head`. -/
  links : Links Link
  mem : Nat → Nat → Nat
  disk : Nat → Nat → Nat
  /-- The frame a root directory's entry leads to, by its index. -/
  dirs : Nat → Nat → Option Nat
  /-- The frame of a page table, by the two indices that lead to it. -/
  tables : Nat → Nat → Nat → Option Nat
  pte : Nat → Slot → Nat
  mms : Nat → Option MmStruct
  /-- `check_mm_struct`. -/
  checkMm : Option Nat

variable {M : PmmManager}

/-- The pages the allocator holds. -/
def State.free (s : State M) : Finset Nat := M.freeSet s.pmm

/-- There is a page table for the slot. -/
def State.HasTable (s : State M) (pgdir : Nat) (x : Slot) : Prop :=
  (s.dirs pgdir x.1).isSome ∧ (s.tables pgdir x.1 x.2.1).isSome

instance (s : State M) (pgdir : Nat) (x : Slot) :
    Decidable (s.HasTable pgdir x) :=
  inferInstanceAs (Decidable (_ ∧ _))

/-- The entry in a slot, 0 where there is no page table. -/
def State.lookup (s : State M) (pgdir : Nat) (x : Slot) : Nat :=
  if s.HasTable pgdir x then s.pte pgdir x else 0

/-- `*ptep = w`. -/
def setPte (pgdir : Nat) (x : Slot) (w : Nat) (s : State M) : State M :=
  let entries := Function.update (s.pte pgdir) x w
  { s with pte := Function.update s.pte pgdir entries }

/-- A cleared page becomes the directory at an index of the root. -/
def enterDir (pgdir d1 page : Nat) (s : State M) : State M :=
  let dirs := Function.update (s.dirs pgdir) d1 (some page)
  let tables := Function.update (s.tables pgdir) d1 fun _ => none
  { s with
    dirs := Function.update s.dirs pgdir dirs,
    tables := Function.update s.tables pgdir tables }

/-- A cleared page becomes the page table at an index of a directory. -/
def enterTable (pgdir d1 d0 page : Nat) (s : State M) : State M :=
  let table := Function.update (s.tables pgdir d1) d0 (some page)
  let tables := Function.update (s.tables pgdir) d1 table
  let entries := fun x : Slot =>
    if x.1 = d1 ∧ x.2.1 = d0 then 0 else s.pte pgdir x
  { s with
    tables := Function.update s.tables pgdir tables,
    pte := Function.update s.pte pgdir entries }

/-- `set_page_ref`. -/
def setPageRef (page : Nat) (val : Int) (s : State M) : State M :=
  { s with ref := Function.update s.ref page val }

/-- `page->pra_vaddr = la`. -/
def setPraVaddr (page la : Nat) (s : State M) : State M :=
  { s with praVaddr := Function.update s.praVaddr page la }

/-- A change of the links. -/
def mapLinks (f : Links Link → Links Link) (s : State M) : State M :=
  { s with links := f s.links }

end Ucore.Swap

namespace Ucore.Swap

open Ucore.Ring

variable {M : PmmManager}

/-- `struct swap_manager`: `swap_manager_fifo` or `swap_manager_lru`. -/
inductive Manager
  | fifo
  | lru
deriving DecidableEq

/-- `_fifo_init_mm`, also `_lru_init_mm`: `&pra_list_head`, after
`list_init`. -/
def initMm : Call (State M) Link := do
  Call.modify (mapLinks fun m => listInit m .praListHead)
  pure .praListHead

/-- `_fifo_map_swappable`. -/
def fifoMapSwappable (mm : MmStruct) (page : Nat) : Call (State M) Unit := do
  let head ← Call.ofOption mm.smPriv
  Call.modify (mapLinks fun m => listAdd m head (.page page))

/-- The loop of `_lru_map_swappable`: the first place after the head at
which the entry stands is unlinked. A list has no more entries than there
are pages, or its links do not lead back to the head. -/
def lruScan (head entry : Link) :
    (fuel : Nat) → Links Link → (top : Link) → Option (Links Link)
  | 0, _, _ => none
  | fuel + 1, m, top =>
      if top ≠ head then
        if entry = top then some (listDel m top)
        else lruScan head entry fuel m (m.next top)
      else some m

/-- `_lru_map_swappable`. -/
def lruMapSwappable (mm : MmStruct) (page : Nat) : Call (State M) Unit := do
  let head ← Call.ofOption mm.smPriv
  let s ← Call.get
  let top := s.links.next head
  let m ← Call.ofOption
    (lruScan head (.page page) (npage + 1)
      (listAdd s.links head (.page page)) top)
  Call.modify (mapLinks fun _ => m)

/-- `sm->map_swappable`. -/
def mapSwappable (sm : Manager) (mm : MmStruct) (page : Nat) :
    Call (State M) Unit :=
  match sm with
  | .fifo => fifoMapSwappable mm page
  | .lru => lruMapSwappable mm page

/-- `_fifo_swap_out_victim`: `NULL` from an empty list. -/
def fifoSwapOutVictim (mm : MmStruct) (inTick : Nat) :
    Call (State M) (Option Nat) := do
  let head ← Call.ofOption mm.smPriv
  Call.assert (inTick = 0)
  let s ← Call.get
  let entry := listPrev s.links head
  if entry ≠ head then do
    Call.modify (mapLinks fun m => listDel m entry)
    pure (le2page entry)
  else pure none

/-- `_lru_swap_out_victim`: from an empty list, the page around the head,
which there is not. -/
def lruSwapOutVictim (mm : MmStruct) (inTick : Nat) :
    Call (State M) (Option Nat) := do
  let head ← Call.ofOption mm.smPriv
  Call.assert (inTick = 0)
  let s ← Call.get
  let entry := listPrev s.links head
  Call.modify (mapLinks fun m => listDel m entry)
  pure (le2page entry)

/-- `sm->swap_out_victim`. -/
def swapOutVictim (sm : Manager) (mm : MmStruct) (inTick : Nat) :
    Call (State M) (Option Nat) :=
  match sm with
  | .fifo => fifoSwapOutVictim mm inTick
  | .lru => lruSwapOutVictim mm inTick

end Ucore.Swap
