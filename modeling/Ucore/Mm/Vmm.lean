/-
kern/mm/vmm.c: virtual memory areas.

`mmap_list` is the list of the areas in list order; `list_prev` from its
head walks it backwards. Areas are not changed after they are made, so
`mmap_cache` holds a copy.

kern/mm/pmm.c and kern/mm/vmm.c: `copy_range` and `dup_mmap`, which copy an
address space page by page. `copy_range` is told whether to share the pages
and does not look.
-/
import Ucore.Mm.Pmm

namespace Ucore.Mm

variable {M : PmmManager}

/-- `VM_READ`. -/
def vmRead : Nat := 0x1
/-- `VM_WRITE`. -/
def vmWrite : Nat := 0x2
/-- `VM_EXEC`. -/
def vmExec : Nat := 0x4

/-- `struct vma_struct`. -/
structure Vma where
  vmStart : Nat
  vmEnd : Nat
  vmFlags : Nat
deriving DecidableEq

/-- `struct mm_struct`. -/
structure MmStruct where
  mmapList : List Vma
  mmapCache : Option Vma
  pgdir : Nat
  mapCount : Nat
  mmCount : Int

/-- What a function returns: 0, `-E_INVAL` or `-E_NO_MEM`. -/
inductive Ret where
  | ok
  | inval
  | noMem
deriving DecidableEq

/-- `mm_create`, with the page directory that `setup_pgdir` stores next. -/
def mmCreate (pgdir : Nat) : MmStruct where
  mmapList := []
  mmapCache := none
  pgdir := pgdir
  mapCount := 0
  mmCount := 0

/-- An address lies in an area. -/
def Vma.Has (vma : Vma) (addr : Nat) : Prop :=
  vma.vmStart ≤ addr ∧ addr < vma.vmEnd

instance (vma : Vma) (addr : Nat) : Decidable (vma.Has addr) :=
  inferInstanceAs (Decidable (_ ∧ _))

/-- `find_vma`: the cached area if it fits, else the first of the list
that does; an area that is found is cached. -/
def findVma (mm : MmStruct) (addr : Nat) : Option Vma × MmStruct :=
  let vma :=
    match mm.mmapCache with
    | some vma =>
        if vma.Has addr then some vma
        else mm.mmapList.find? fun vma => decide (vma.Has addr)
    | none => mm.mmapList.find? fun vma => decide (vma.Has addr)
  match vma with
  | some vma => (some vma, { mm with mmapCache := some vma })
  | none => (none, mm)

/-- The conditions `check_vma_overlap` asserts. -/
def VmaBefore (prev next : Vma) : Prop :=
  prev.vmStart < prev.vmEnd ∧ prev.vmEnd ≤ next.vmStart
    ∧ next.vmStart < next.vmEnd

instance (prev next : Vma) : Decidable (VmaBefore prev next) :=
  inferInstanceAs (Decidable (_ ∧ _))

/-- `insert_vma_struct`. -/
def insertVmaStruct (mm : MmStruct) (vma : Vma) : Option MmStruct :=
  if vma.vmStart < vma.vmEnd then
    let pre := mm.mmapList.takeWhile fun v => decide (v.vmStart ≤ vma.vmStart)
    let suf := mm.mmapList.dropWhile fun v => decide (v.vmStart ≤ vma.vmStart)
    if (∀ prev ∈ pre.getLast?, VmaBefore prev vma)
        ∧ (∀ next ∈ suf.head?, VmaBefore vma next) then
      some { mm with
        mmapList := pre ++ vma :: suf, mapCount := mm.mapCount + 1 }
    else none
  else none

/-- `vma_create`; `room` tells whether `kmalloc` returns memory. -/
def vmaCreate (room : Bool) (vmStart vmEnd vmFlags : Nat) : Option Vma :=
  if room then some { vmStart, vmEnd, vmFlags } else none

/-- `mm_map`, with the null `vma_store` that every caller passes. -/
def mmMap (room : Bool) (mm : MmStruct) (addr len vmFlags : Nat) :
    Option (Ret × MmStruct) :=
  let start := rounddown addr pgsize
  let last := roundup ((addr + len) % 2 ^ 64) pgsize
  if userAccess start last then
    let (found, mm) := findVma mm start
    if ∃ vma ∈ found, vma.vmStart < last then some (.inval, mm)
    else
      match vmaCreate room start last vmFlags with
      | none => some (.noMem, mm)
      | some vma =>
          match insertVmaStruct mm vma with
          | none => none
          | some mm => some (.ok, mm)
  else some (.inval, mm)

/-- The first loop of `exit_mmap`. -/
def unmapVmas (pgdir : Nat) : List Vma → Machine M → Option (Machine M)
  | [], s => some s
  | vma :: vmas, s =>
      match unmapRange s pgdir vma.vmStart vma.vmEnd with
      | none => none
      | some s => unmapVmas pgdir vmas s

/-- The second loop of `exit_mmap`. -/
def exitVmas (pgdir : Nat) : List Vma → Machine M → Option (Machine M)
  | [], s => some s
  | vma :: vmas, s =>
      match exitRange s pgdir vma.vmStart vma.vmEnd with
      | none => none
      | some s => exitVmas pgdir vmas s

/-- `exit_mmap`. -/
def exitMmap (s : Machine M) (mm : MmStruct) : Option (Machine M) :=
  if mm.mmCount = 0 then
    match unmapVmas mm.pgdir mm.mmapList s with
    | none => none
    | some s => exitVmas mm.pgdir mm.mmapList s
  else none

end Ucore.Mm

namespace Ucore.Mm

variable {M : PmmManager}

-- ======================================================== copy_range

/-- What `copy_range` does with an entry of the source: a new page gets the
contents of a page that is mapped, and is mapped with the entry's user bits.
`false` is `-E_NO_MEM`. -/
def copyEntry (s : Machine M) (dst : Nat) (ptep : Nat × Nat) (start : Nat) :
    Option (Bool × Machine M) :=
  if hasFlag (s.word ptep) pteV then
    match getPte s dst start true with
    | none => none
    | some (none, s) => some (false, s)
    | some (some _, s) =>
        let perm := s.word ptep &&& pteUser
        match pte2page (s.word ptep) with
        | none => none
        | some page =>
            match allocPage s with
            | none => none
            | some (npage, s) =>
                let s := copyPage s npage page
                pageInsert s dst npage start perm
  else some (true, s)

/-- The loop of `copy_range`, which skips what a missing page table would
map. -/
def copyLoop (dst src last : Nat) :
    (fuel : Nat) → Machine M → (start : Nat) → Option (Bool × Machine M)
  | 0, _, _ => none
  | fuel + 1, s, start =>
      match getPte s src start false with
      | none => none
      | some (none, s) =>
          let start := rounddown (start + ptsize) ptsize
          if start ≠ 0 ∧ start < last then copyLoop dst src last fuel s start
          else some (true, s)
      | some (some ptep, s) =>
          match copyEntry s dst ptep start with
          | none => none
          | some (false, s) => some (false, s)
          | some (true, s) =>
              let start := start + pgsize
              if start ≠ 0 ∧ start < last then
                copyLoop dst src last fuel s start
              else some (true, s)

/-- `copy_range`. Each round of the loop moves on by a page or more. -/
def copyRange (s : Machine M) (dst src start last : Nat) (_share : Bool) :
    Option (Bool × Machine M) :=
  if start % pgsize = 0 ∧ last % pgsize = 0 ∧ userAccess start last then
    copyLoop dst src last ((last - start) / pgsize) s start
  else none

-- ========================================================== dup_mmap

/-- The loop of `dup_mmap`, over the areas of the source from the last to
the first. -/
def dupVmas (src : Nat) :
    List Vma → MmStruct → Machine M → Option (Bool × MmStruct × Machine M)
  | [], dst, s => some (true, dst, s)
  | vma :: vmas, dst, s =>
      match insertVmaStruct dst vma with
      | none => none
      | some dst =>
          match copyRange s dst.pgdir src vma.vmStart vma.vmEnd false with
          | none => none
          | some (false, s) => some (false, dst, s)
          | some (true, s) => dupVmas src vmas dst s

/-- `dup_mmap`; `false` is `-E_NO_MEM`. -/
def dupMmap (s : Machine M) (dst src : MmStruct) :
    Option (Bool × MmStruct × Machine M) :=
  dupVmas src.pgdir src.mmapList.reverse dst s

end Ucore.Mm
