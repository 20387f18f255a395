/-
kern/mm/pmm.c: page tables and page reference counts.

A `struct Page *` and the kernel address of the page it describes are both
named by the page frame number. A pointer into a page table is a frame and
the index of an entry; a frame of memory is its 512 words. The page
allocator is behind `struct pmm_manager`, a table of functions, and is a
parameter with its contract: what is known of it is the set of pages it
holds free. Swapping is off (`swap_init_ok` is 0), so an allocation that
fails returns `NULL`. The TLB is not modelled.

`none` is a panic: a failed assertion, an address past the end of memory,
and a page number before the first page, which indexes before `pages`.
-/
import Ucore.Mm.Mmu
import Mathlib.Data.Finset.Basic
import Mathlib.Data.Finset.Insert

namespace Ucore

-- ======================================================= pmm_manager

/-- `struct pmm_manager`, for single pages, with its contract: a page that
is allocated was free and no longer is, a page that is not free and is
released is free again, and an allocation fails only when no page is
free. -/
structure PmmManager where
  State : Type
  /-- The pages the manager holds free. -/
  freeSet : State → Finset Nat
  /-- `alloc_pages(1)`. -/
  allocPages : State → Option (Nat × State)
  /-- `free_pages(page, 1)`. -/
  freePages : State → Nat → State
  allocPages_spec : ∀ σ p σ', allocPages σ = some (p, σ') →
    p ∈ freeSet σ ∧ freeSet σ' = (freeSet σ).erase p
  freePages_spec : ∀ σ p, p ∉ freeSet σ →
    freeSet (freePages σ p) = insert p (freeSet σ)
  allocPages_some : ∀ σ, (freeSet σ).Nonempty → (allocPages σ).isSome

namespace Mm

variable {M : PmmManager}

/-- Physical memory as the kernel sees it. `freed` records the pages given
to `free_page`, the latest first; no function reads it. -/
structure Machine (M : PmmManager) where
  mem : Nat → Nat → Nat
  ref : Nat → Int
  pmm : M.State
  freed : List Nat

/-- The pages the allocator holds. -/
def Machine.free (s : Machine M) : Finset Nat := M.freeSet s.pmm

/-- The word a pointer names. -/
def Machine.word (s : Machine M) (ptr : Nat × Nat) : Nat :=
  s.mem ptr.1 ptr.2

/-- `*ptr = w`. -/
def Machine.setWord (s : Machine M) (ptr : Nat × Nat) (w : Nat) :
    Machine M :=
  let frame := Function.update (s.mem ptr.1) ptr.2 w
  { s with mem := Function.update s.mem ptr.1 frame }

/-- `set_page_ref`. -/
def setPageRef (s : Machine M) (page : Nat) (val : Int) : Machine M :=
  { s with ref := Function.update s.ref page val }

/-- `page_ref`. -/
def pageRef (s : Machine M) (page : Nat) : Int := s.ref page

/-- `page_ref_inc`. -/
def pageRefInc (s : Machine M) (page : Nat) : Machine M :=
  setPageRef s page (pageRef s page + 1)

/-- `page_ref_dec`. -/
def pageRefDec (s : Machine M) (page : Nat) : Machine M :=
  setPageRef s page (pageRef s page - 1)

/-- `memset(page, 0, PGSIZE)`. -/
def clearPage (s : Machine M) (page : Nat) : Machine M :=
  { s with mem := Function.update s.mem page fun _ => 0 }

/-- `memcpy(dst, src, PGSIZE)`. -/
def copyPage (s : Machine M) (dst src : Nat) : Machine M :=
  { s with mem := Function.update s.mem dst (s.mem src) }

/-- `alloc_page`; the outer `none` is `NULL`. -/
def allocPage (s : Machine M) : Option (Nat × Machine M) :=
  match M.allocPages s.pmm with
  | none => none
  | some (page, pmm) => some (page, { s with pmm := pmm })

/-- `free_page`: the manager's `free_pages` clears the reference count. -/
def freePage (s : Machine M) (page : Nat) : Machine M :=
  { setPageRef s page 0 with
    pmm := M.freePages s.pmm page, freed := page :: s.freed }

/-- `KADDR`, for the address of a frame. -/
def kaddr (pa : Nat) : Option Nat :=
  if npage ≤ ppn pa then none else some (ppn pa)

/-- `pa2page`. -/
def pa2page (pa : Nat) : Option Nat :=
  if npage ≤ ppn pa ∨ ppn pa < nbase then none else some (ppn pa)

/-- `pte2page`. -/
def pte2page (pte : Nat) : Option Nat :=
  if hasFlag pte pteV then pa2page (pteAddr pte) else none

/-- `pde2page`. -/
def pde2page (pde : Nat) : Option Nat := pa2page (pteAddr pde)

-- =========================================================== get_pte

/-- What `get_pte` does at each of its two directory levels: the table
that the entry at `pdep` leads to, or `NULL`. A missing table is allocated,
cleared and entered when `create` is set. -/
def getTable (s : Machine M) (pdep : Nat × Nat) (create : Bool) :
    Option (Option Nat × Machine M) :=
  if hasFlag (s.word pdep) pteV then
    match kaddr (pteAddr (s.word pdep)) with
    | none => none
    | some table => some (some table, s)
  else if !create then some (none, s)
  else
    match allocPage s with
    | none => some (none, s)
    | some (page, s) =>
        if npage ≤ page then none
        else
          let s := setPageRef s page 1
          let s := clearPage s page
          let s := s.setWord pdep (pteCreate page (pteU ||| pteV))
          match kaddr (pteAddr (s.word pdep)) with
          | none => none
          | some table => some (some table, s)

/-- `get_pte`. -/
def getPte (s : Machine M) (pgdir la : Nat) (create : Bool) :
    Option (Option (Nat × Nat) × Machine M) :=
  match getTable s (pgdir, pdx1 la) create with
  | none => none
  | some (none, s) => some (none, s)
  | some (some pd0, s) =>
      match getTable s (pd0, pdx0 la) create with
      | none => none
      | some (none, s) => some (none, s)
      | some (some pt, s) => some (some (pt, ptx la), s)

/-- `get_page`, with what it stores in `*ptep_store`. -/
def getPage (s : Machine M) (pgdir la : Nat) :
    Option (Option Nat × Option (Nat × Nat)) :=
  match getPte s pgdir la false with
  | none => none
  | some (none, _) => some (none, none)
  | some (some ptep, s) =>
      if hasFlag (s.word ptep) pteV then
        match pte2page (s.word ptep) with
        | none => none
        | some page => some (some page, some ptep)
      else some (none, some ptep)

-- ======================================= page_remove and page_insert

/-- `page_remove_pte`. -/
def pageRemovePte (s : Machine M) (ptep : Nat × Nat) : Option (Machine M) :=
  if hasFlag (s.word ptep) pteV then
    match pte2page (s.word ptep) with
    | none => none
    | some page =>
        let s := pageRefDec s page
        let s := if pageRef s page = 0 then freePage s page else s
        some (s.setWord ptep 0)
  else some s

/-- `page_remove`. -/
def pageRemove (s : Machine M) (pgdir la : Nat) : Option (Machine M) :=
  match getPte s pgdir la false with
  | none => none
  | some (none, s) => some s
  | some (some ptep, s) => pageRemovePte s ptep

/-- `page_insert`; `false` is `-E_NO_MEM`, `true` is 0. -/
def pageInsert (s : Machine M) (pgdir page la perm : Nat) :
    Option (Bool × Machine M) :=
  match getPte s pgdir la true with
  | none => none
  | some (none, s) => some (false, s)
  | some (some ptep, s) =>
      let s := pageRefInc s page
      let removed :=
        if hasFlag (s.word ptep) pteV then
          match pte2page (s.word ptep) with
          | none => none
          | some p =>
              if p = page then some (pageRefDec s page)
              else pageRemovePte s ptep
        else some s
      match removed with
      | none => none
      | some s =>
          some (true, s.setWord ptep (pteCreate page (pteV ||| perm)))

/-- `pgdir_alloc_page`, with swapping off. -/
def pgdirAllocPage (s : Machine M) (pgdir la perm : Nat) :
    Option (Option Nat × Machine M) :=
  match allocPage s with
  | none => some (none, s)
  | some (page, s) =>
      match pageInsert s pgdir page la perm with
      | none => none
      | some (false, s) => some (none, freePage s page)
      | some (true, s) => some (some page, s)

-- ======================================================= unmap_range

/-- The loop of `unmap_range`, which skips what a missing page table would
map. -/
def unmapLoop (pgdir last : Nat) :
    (fuel : Nat) → Machine M → (start : Nat) → Option (Machine M)
  | 0, _, _ => none
  | fuel + 1, s, start =>
      match getPte s pgdir start false with
      | none => none
      | some (none, s) =>
          let start := rounddown (start + ptsize) ptsize
          if start ≠ 0 ∧ start < last then unmapLoop pgdir last fuel s start
          else some s
      | some (some ptep, s) =>
          let removed :=
            if s.word ptep ≠ 0 then pageRemovePte s ptep else some s
          match removed with
          | none => none
          | some s =>
              let start := start + pgsize
              if start ≠ 0 ∧ start < last then
                unmapLoop pgdir last fuel s start
              else some s

/-- `unmap_range`. Each round of the loop moves on by a page or more. -/
def unmapRange (s : Machine M) (pgdir start last : Nat) :
    Option (Machine M) :=
  if start % pgsize = 0 ∧ last % pgsize = 0 ∧ userAccess start last then
    unmapLoop pgdir last ((last - start) / pgsize) s start
  else none

-- ======================================================== exit_range

/-- No entry of the page table is valid. -/
def tableEmpty (s : Machine M) (pt : Nat) : Bool :=
  (List.range 512).all fun i => !decide (hasFlag (s.mem pt i) pteV)

/-- A round of the inner loop of `exit_range`: an empty page table is
freed. The flag is `free_pd0`. -/
def exitTable (s : Machine M) (pd0 d0start : Nat) (freePd0 : Bool) :
    Option (Machine M × Bool) :=
  let pde0 := s.mem pd0 (pdx0 d0start)
  if hasFlag pde0 pteV then
    match pde2page pde0 with
    | none => none
    | some pt =>
        if tableEmpty s pt then
          some ((freePage s pt).setWord (pd0, pdx0 d0start) 0, freePd0)
        else some (s, freePd0)
  else some (s, false)

/-- The inner loop of `exit_range`, over the page tables of one
directory. -/
def exitTables (pd0 d1start last : Nat) :
    (fuel : Nat) → Machine M → (d0start : Nat) → (freePd0 : Bool) →
      Option (Machine M × Bool)
  | 0, _, _, _ => none
  | fuel + 1, s, d0start, freePd0 =>
      match exitTable s pd0 d0start freePd0 with
      | none => none
      | some (s, freePd0) =>
          let d0start := d0start + ptsize
          if d0start ≠ 0 ∧ d0start < d1start + pdsize ∧ d0start < last then
            exitTables pd0 d1start last fuel s d0start freePd0
          else some (s, freePd0)

/-- A round of the outer loop of `exit_range`: the directory is freed if
the flag is still set after its page tables. -/
def exitDir (s : Machine M) (pgdir d1start d0start last : Nat) :
    Option (Machine M) :=
  let pde1 := s.mem pgdir (pdx1 d1start)
  if hasFlag pde1 pteV then
    match pde2page pde1 with
    | none => none
    | some pd0 =>
        match exitTables pd0 d1start last 512 s d0start true with
        | none => none
        | some (s, freePd0) =>
            if freePd0 then
              some ((freePage s pd0).setWord (pgdir, pdx1 d1start) 0)
            else some s
  else some s

/-- The outer loop of `exit_range`, over the directories. -/
def exitDirs (pgdir last : Nat) :
    (fuel : Nat) → Machine M → (d1start d0start : Nat) → Option (Machine M)
  | 0, _, _, _ => none
  | fuel + 1, s, d1start, d0start =>
      match exitDir s pgdir d1start d0start last with
      | none => none
      | some s =>
          let d1start := d1start + pdsize
          if d1start ≠ 0 ∧ d1start < last then
            exitDirs pgdir last fuel s d1start d1start
          else some s

/-- `exit_range`. -/
def exitRange (s : Machine M) (pgdir start last : Nat) :
    Option (Machine M) :=
  if start % pgsize = 0 ∧ last % pgsize = 0 ∧ userAccess start last then
    let d1start := rounddown start pdsize
    let d0start := rounddown start ptsize
    exitDirs pgdir last ((last - d1start) / pdsize + 1) s d1start d0start
  else none

-- ============================================ fields after an update

section Fields

variable (s : Machine M) (ptr : Nat × Nat) (page : Nat) (w : Nat) (val : Int)

@[simp] theorem setWord_ref : (s.setWord ptr w).ref = s.ref := rfl
@[simp] theorem setWord_pmm : (s.setWord ptr w).pmm = s.pmm := rfl
@[simp] theorem setWord_free : (s.setWord ptr w).free = s.free := rfl
@[simp] theorem setWord_freed : (s.setWord ptr w).freed = s.freed := rfl

theorem setWord_mem (f i : Nat) : (s.setWord ptr w).mem f i
    = if f = ptr.1 ∧ i = ptr.2 then w else s.mem f i := by
  simp only [Machine.setWord, Function.update_apply]
  by_cases hf : f = ptr.1
  · subst hf
    simp [Function.update_apply]
  · simp [hf]

@[simp] theorem setWord_word : (s.setWord ptr w).word ptr = w := by
  simp [Machine.word, setWord_mem]

@[simp] theorem setPageRef_mem : (setPageRef s page val).mem = s.mem := rfl
@[simp] theorem setPageRef_pmm : (setPageRef s page val).pmm = s.pmm := rfl
@[simp] theorem setPageRef_free : (setPageRef s page val).free = s.free := rfl
@[simp] theorem setPageRef_freed :
    (setPageRef s page val).freed = s.freed := rfl

@[simp] theorem setPageRef_ref (p : Nat) : (setPageRef s page val).ref p
    = if p = page then val else s.ref p := by
  simp [setPageRef, Function.update_apply]

@[simp] theorem pageRefInc_mem : (pageRefInc s page).mem = s.mem := rfl
@[simp] theorem pageRefDec_mem : (pageRefDec s page).mem = s.mem := rfl

@[simp] theorem freePage_mem : (freePage s page).mem = s.mem := rfl
@[simp] theorem freePage_freed :
    (freePage s page).freed = page :: s.freed := rfl

@[simp] theorem freePage_ref (p : Nat) : (freePage s page).ref p
    = if p = page then 0 else s.ref p := by
  simp [freePage]

theorem freePage_free (h : page ∉ s.free) :
    (freePage s page).free = insert page s.free :=
  M.freePages_spec s.pmm page h

end Fields

/-- An allocated page was free; nothing else changes. -/
theorem allocPage_spec {s s' : Machine M} {page : Nat}
    (h : allocPage s = some (page, s')) :
    page ∈ s.free ∧ s'.free = s.free.erase page ∧ s'.mem = s.mem
      ∧ s'.ref = s.ref ∧ s'.freed = s.freed := by
  unfold allocPage at h
  cases halloc : M.allocPages s.pmm with
  | none => rw [halloc] at h; cases h
  | some r =>
      obtain ⟨p, pmm⟩ := r
      rw [halloc] at h
      cases h
      have hspec := M.allocPages_spec s.pmm page pmm halloc
      exact ⟨hspec.1, hspec.2, rfl, rfl, rfl⟩

/-- `NULL` comes back only when no page is free. -/
theorem allocPage_none {s : Machine M} (h : allocPage s = none) :
    s.free = ∅ := by
  unfold allocPage at h
  cases halloc : M.allocPages s.pmm with
  | none =>
      by_contra hne
      have hsome := M.allocPages_some s.pmm
        (Finset.nonempty_iff_ne_empty.mpr hne)
      rw [halloc] at hsome
      cases hsome
  | some r => rw [halloc] at h; cases h

end Mm

end Ucore
