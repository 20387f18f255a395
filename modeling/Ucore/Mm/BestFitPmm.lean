/-
kern/mm/best_fit_pmm.c: the best-fit physical page allocator.

Page headers, links and their accesses are those of the first-fit
allocator, and so are the code that takes pages off the block it has found
and the code of `best_fit_free_pages`. What differs is the search, which
goes on to the end of the list, and the insertion in
`best_fit_init_memmap`, which returns from inside its loop.
-/
import Ucore.Mm.DefaultPmm

namespace Ucore.BestFitPmm

open DefaultPmm Ring

/-- `best_fit_init`. -/
def bestFitInit (s : Pmm) : Pmm :=
  { s with links := listInit s.links .freeList, nrFree := 0 }

-- ======================================================= init_memmap

/-- The loop of `best_fit_init_memmap` that looks for a block's place by
address. When no block lies above, `le` is the head again at the end, and
what is added behind it is the first of the list. -/
def placeLoop (base : Nat) :
    (fuel : Nat) → Links Entry → Entry → Option (Links Entry)
  | 0, _, _ => none
  | fuel + 1, m, le =>
      let le := listNext m le
      if le = .freeList then some (listAdd m le (.pageLink base))
      else
        let page := le2page le
        if base < page then some (listAddBefore m le (.pageLink base))
        else placeLoop base fuel m le

/-- The insertion of `best_fit_init_memmap`. -/
def placeBlock (fuel : Nat) (m : Links Entry) (base : Nat) :
    Option (Links Entry) :=
  if listEmpty m .freeList then
    some (listAdd m .freeList (.pageLink base))
  else placeLoop base fuel m .freeList

/-- `best_fit_init_memmap`. -/
def bestFitInitMemmap (fuel base n : Nat) (s : Pmm) : Option Pmm :=
  if n = 0 then none
  else
    match initPages base n s.pages with
    | none => none
    | some pages =>
        let s := { s with pages := pages }
        let s := setPageProperty (setProperty s base n) base
        let s := { s with nrFree := u32 (s.nrFree + n) }
        match placeBlock fuel s.links base with
        | none => none
        | some links => some { s with links := links }

-- ======================================================= alloc_pages

/-- The search loop of `best_fit_alloc_pages`: the first of the smallest
blocks that are large enough. -/
def bestBlock (s : Pmm) (n : Nat) :
    (fuel : Nat) → Entry → (minSize : Nat) → (bestPage : Option Nat) →
      Option (Option Nat)
  | 0, _, _, _ => none
  | fuel + 1, le, minSize, bestPage =>
      let le := listNext s.links le
      if le = .freeList then some bestPage
      else
        let p := le2page le
        if n ≤ (s.pages p).property ∧ (s.pages p).property < minSize then
          bestBlock s n fuel le (s.pages p).property (some p)
        else bestBlock s n fuel le minSize bestPage

/-- `best_fit_alloc_pages`: the page it returns (`none` for `NULL`) and the
memory it leaves. `nr_free + 1` is computed in 32 bits. -/
def bestFitAllocPages (fuel n : Nat) (s : Pmm) :
    Option (Option Nat × Pmm) :=
  if n = 0 then none
  else if s.nrFree < n then some (none, s)
  else
    match bestBlock s n fuel .freeList (u32 (s.nrFree + 1)) none with
    | none => none
    | some none => some (none, s)
    | some (some page) => some (some page, takeBlock s n page)

-- ======================================================== free_pages

/-- `best_fit_free_pages`. -/
def bestFitFreePages (fuel base n : Nat) (s : Pmm) : Option Pmm :=
  if n = 0 then none
  else
    match freePages base n s.pages with
    | none => none
    | some pages =>
        let s := { s with pages := pages }
        let s := setPageProperty (setProperty s base n) base
        let s := { s with nrFree := u32 (s.nrFree + n) }
        match linkBlock fuel s.links base with
        | none => none
        | some links =>
            let s := { s with links := links }
            let (s, base) := mergePrev s base
            some (mergeNext s base)

/-- The two allocators free pages alike. -/
theorem bestFitFreePages_eq : bestFitFreePages = defaultFreePages := rfl

/-- `best_fit_nr_free_pages`. -/
def bestFitNrFreePages (s : Pmm) : Nat := s.nrFree

end Ucore.BestFitPmm
