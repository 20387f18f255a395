/-
kern/mm/default_pmm.c: the first-fit physical page allocator.

A page is named by its index in the `pages` array, so pointer arithmetic
and pointer comparison on `struct Page *` are arithmetic and comparison
of indices. The free list is threaded through the `page_link` fields of
the page headers: its cells are the list head and the links of the pages,
and the fields are read and stored through libs/list.h only.

`property` and `nr_free` are 32-bit unsigned and wrap (`u32`); `size_t`
arguments are numbers. A function that fails an assertion, and a loop that
outruns its fuel, is `none`: fuel stands for the time the C loop is given,
so a loop that never ends is `none` for every amount of it.
-/
import Ucore.Libs.List
import Mathlib.Algebra.Group.Nat.Defs

namespace Ucore

open Ring

/-- A value stored in a 32-bit unsigned field. -/
def u32 (n : Nat) : Nat := n % 2 ^ 32

/-- Below the width a 32-bit field keeps the value. -/
theorem u32_eq {n : Nat} (hn : n < 2 ^ 32) : u32 n = n :=
  Nat.mod_eq_of_lt hn

namespace DefaultPmm

-- ========================================================= the state

/-- `struct Page`, without its links: the two flag bits of `flags` that
are in use, the reference count, and the size of the free block the page
heads. -/
structure Page where
  ref : Int
  pgReserved : Bool
  pgProperty : Bool
  property : Nat
deriving DecidableEq

/-- The cells of the free list: its head, and the `page_link` of a
page. -/
inductive Entry where
  | freeList
  | pageLink (p : Nat)
deriving DecidableEq

/-- `le2page`: the page around a link. The head is in no page; the code
compares with the head before every use. -/
def le2page : Entry → Nat
  | .pageLink p => p
  | .freeList => 0

/-- The allocator's memory: the page headers, their links, `nr_free`. -/
structure Pmm where
  pages : Nat → Page
  links : Links Entry
  nrFree : Nat

/-- Store a page header. -/
def Pmm.setPage (s : Pmm) (p : Nat) (pg : Page) : Pmm :=
  { s with pages := Function.update s.pages p pg }

/-- `SetPageProperty`. -/
def setPageProperty (s : Pmm) (p : Nat) : Pmm :=
  s.setPage p { s.pages p with pgProperty := true }

/-- `ClearPageProperty`. -/
def clearPageProperty (s : Pmm) (p : Nat) : Pmm :=
  s.setPage p { s.pages p with pgProperty := false }

/-- `p->property = n`. -/
def setProperty (s : Pmm) (p n : Nat) : Pmm :=
  s.setPage p { s.pages p with property := u32 n }

/-- `default_init`. -/
def defaultInit (s : Pmm) : Pmm :=
  { s with links := listInit s.links .freeList, nrFree := 0 }

-- ================================================ linking a block in

/-- The loop that looks for a block's place by address. After it adds the
block at the tail it does not leave the loop: the next round starts from
the block it has just added. -/
def linkBlockLoop (base : Nat) :
    (fuel : Nat) → Links Entry → Entry → Option (Links Entry)
  | 0, _, _ => none
  | fuel + 1, m, le =>
      let le := listNext m le
      if le = .freeList then some m
      else
        let page := le2page le
        if base < page then some (listAddBefore m le (.pageLink base))
        else if listNext m le = .freeList then
          linkBlockLoop base fuel (listAdd m le (.pageLink base)) le
        else linkBlockLoop base fuel m le

/-- The insertion shared by `default_init_memmap` and
`default_free_pages`. -/
def linkBlock (fuel : Nat) (m : Links Entry) (base : Nat) :
    Option (Links Entry) :=
  if listEmpty m .freeList then
    some (listAdd m .freeList (.pageLink base))
  else linkBlockLoop base fuel m .freeList

-- ======================================================= init_memmap

/-- The page loop of `default_init_memmap`: `k` pages from `p` on. -/
def initPages (p : Nat) : (k : Nat) → (Nat → Page) → Option (Nat → Page)
  | 0, pages => some pages
  | k + 1, pages =>
      match initPages p k pages with
      | none => none
      | some pages =>
          if (pages (p + k)).pgReserved then
            some (Function.update pages (p + k)
              { ref := 0, pgReserved := false, pgProperty := false,
                property := 0 })
          else none

/-- `default_init_memmap`. -/
def defaultInitMemmap (fuel base n : Nat) (s : Pmm) : Option Pmm :=
  if n = 0 then none
  else
    match initPages base n s.pages with
    | none => none
    | some pages =>
        let s := { s with pages := pages }
        let s := setPageProperty (setProperty s base n) base
        let s := { s with nrFree := u32 (s.nrFree + n) }
        match linkBlock fuel s.links base with
        | none => none
        | some links => some { s with links := links }

-- ======================================================= alloc_pages

/-- The search loop of `default_alloc_pages`. -/
def findBlock (s : Pmm) (n : Nat) :
    (fuel : Nat) → Entry → Option (Option Nat)
  | 0, _ => none
  | fuel + 1, le =>
      let le := listNext s.links le
      if le = .freeList then some none
      else if n ≤ (s.pages (le2page le)).property then
        some (some (le2page le))
      else findBlock s n fuel le

/-- The tail of `default_alloc_pages`: take `n` pages off the block at
`page`, put what is left of it in the block's place. -/
def takeBlock (s : Pmm) (n page : Nat) : Pmm :=
  let prev := listPrev s.links (.pageLink page)
  let s := { s with links := listDel s.links (.pageLink page) }
  let s :=
    if n < (s.pages page).property then
      let p := page + n
      let s := setProperty s p ((s.pages page).property - n)
      let s := setPageProperty s p
      { s with links := listAdd s.links prev (.pageLink p) }
    else s
  let s := { s with nrFree := s.nrFree - n }
  clearPageProperty s page

/-- `default_alloc_pages`: the page it returns (`none` for `NULL`) and
the memory it leaves. -/
def defaultAllocPages (fuel n : Nat) (s : Pmm) :
    Option (Option Nat × Pmm) :=
  if n = 0 then none
  else if s.nrFree < n then some (none, s)
  else
    match findBlock s n fuel .freeList with
    | none => none
    | some none => some (none, s)
    | some (some page) => some (some page, takeBlock s n page)

-- ======================================================== free_pages

/-- The page loop of `default_free_pages`: `k` pages from `p` on. -/
def freePages (p : Nat) : (k : Nat) → (Nat → Page) → Option (Nat → Page)
  | 0, pages => some pages
  | k + 1, pages =>
      match freePages p k pages with
      | none => none
      | some pages =>
          let pg := pages (p + k)
          if !pg.pgReserved && !pg.pgProperty then
            some (Function.update pages (p + k)
              { pg with ref := 0, pgReserved := false, pgProperty := false })
          else none

/-- Merge the block at `base` into the block before it when that one ends
where `base` begins; the base of the block that results. -/
def mergePrev (s : Pmm) (base : Nat) : Pmm × Nat :=
  let le := listPrev s.links (.pageLink base)
  if le ≠ .freeList then
    let p := le2page le
    if p + (s.pages p).property = base then
      let s := setProperty s p
        ((s.pages p).property + (s.pages base).property)
      let s := clearPageProperty s base
      ({ s with links := listDel s.links (.pageLink base) }, p)
    else (s, base)
  else (s, base)

/-- Merge the block after the block at `base` into it when that one begins
where the block ends. -/
def mergeNext (s : Pmm) (base : Nat) : Pmm :=
  let le := listNext s.links (.pageLink base)
  if le ≠ .freeList then
    let p := le2page le
    if base + (s.pages base).property = p then
      let s := setProperty s base
        ((s.pages base).property + (s.pages p).property)
      let s := clearPageProperty s p
      { s with links := listDel s.links (.pageLink p) }
    else s
  else s

/-- `default_free_pages`. -/
def defaultFreePages (fuel base n : Nat) (s : Pmm) : Option Pmm :=
  if n = 0 then none
  else
    match freePages base n s.pages with
    | none => none
    | some pages =>
        let s := { s with pages := pages }
        let s := setPageProperty (setProperty s base n) base
        let s := { s with nrFree := u32 (s.nrFree + n) }
        match linkBlock fuel s.links base with
        | none => none
        | some links =>
            let s := { s with links := links }
            let (s, base) := mergePrev s base
            some (mergeNext s base)

/-- `default_nr_free_pages`. -/
def defaultNrFreePages (s : Pmm) : Nat := s.nrFree

-- ===================================== header fields after an update

@[simp] theorem setPage_pages (s : Pmm) (p q : Nat) (pg : Page) :
    (s.setPage p pg).pages q = if q = p then pg else s.pages q := by
  simp [Pmm.setPage, Function.update_apply]

@[simp] theorem setPage_links (s : Pmm) (p : Nat) (pg : Page) :
    (s.setPage p pg).links = s.links := rfl

@[simp] theorem setPage_nrFree (s : Pmm) (p : Nat) (pg : Page) :
    (s.setPage p pg).nrFree = s.nrFree := rfl

end DefaultPmm

end Ucore
