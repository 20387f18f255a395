/-
cow/pmm.c: `copy_range` of the copy-on-write kernel.

cow/vmm.c: `dup_mmap` and `do_pgfault` of the copy-on-write kernel.
-/
import Ucore.Mm.Pmm
import Ucore.Mm.Vmm

namespace Ucore.Cow

open Mm

variable {M : PmmManager}

/-- `a & ~flag`. -/
def clearFlag (a flag : Nat) : Nat := a &&& (2 ^ 64 - 1 - flag)

/-- The permissions under which `copy_range` shares a page:
`((*ptep & PTE_USER) & ~PTE_W) | PTE_V`. -/
def sharePerm (pte : Nat) : Nat :=
  clearFlag (pte &&& pteUser) pteW ||| pteV

/-- What `copy_range` does with a page `page` mapped by `pte` at `start`.
One page is allocated in any case; only a private copy allocates another
and uses it. The results of the two `page_insert` calls of a shared page
are not looked at. -/
def copyPte (s : Machine M) (dst src pte start : Nat) (share : Bool) :
    Option (Machine M) :=
  match pte2page pte with
  | none => none
  | some page =>
      match allocPage s with
      | none => none
      | some (_, s) =>
          if share then
            match pageInsert s src page start (sharePerm pte) with
            | none => none
            | some (_, s) =>
                match pageInsert s dst page start (sharePerm pte) with
                | none => none
                | some (_, s) => some s
          else
            match allocPage s with
            | none => none
            | some (npage, s) =>
                let s := copyPage s npage page
                match pageInsert s dst npage start (pte &&& pteUser) with
                | some (true, s) => some s
                | _ => none

/-- The loop of `copy_range`, which moves on to the next page only after a
page it copied; `false` is `-E_NO_MEM`. -/
def copyLoop (dst src last : Nat) (share : Bool) :
    (fuel : Nat) → Machine M → (start : Nat) → Option (Bool × Machine M)
  | 0, _, _ => none
  | fuel + 1, s, start =>
      match getPte s src start false with
      | none => none
      | some (none, s) =>
          let start := rounddown (start + ptsize) ptsize
          if start ≠ 0 ∧ start < last then
            copyLoop dst src last share fuel s start
          else some (true, s)
      | some (some ptep, s) =>
          if hasFlag (s.word ptep) pteV then
            match getPte s dst start true with
            | none => none
            | some (none, s) => some (false, s)
            | some (some _, s) =>
                match copyPte s dst src (s.word ptep) start share with
                | none => none
                | some s =>
                    let start := start + pgsize
                    if start ≠ 0 ∧ start < last then
                      copyLoop dst src last share fuel s start
                    else some (true, s)
          else if start ≠ 0 ∧ start < last then
            copyLoop dst src last share fuel s start
          else some (true, s)

/-- `copy_range`; fuel is the number of rounds its loop is given. -/
def copyRange (fuel : Nat) (s : Machine M) (dst src start last : Nat)
    (share : Bool) : Option (Bool × Machine M) :=
  if start % pgsize = 0 ∧ last % pgsize = 0 ∧ userAccess start last then
    copyLoop dst src last share fuel s start
  else none

end Ucore.Cow

namespace Ucore.Cow

open Mm

variable {M : PmmManager}

-- ========================================================== dup_mmap

/-- The loop of `dup_mmap`, over the areas of the parent from the last to
the first. -/
def dupVmas (fuel src : Nat) :
    List Vma → MmStruct → Machine M → Option (Bool × MmStruct × Machine M)
  | [], dst, s => some (true, dst, s)
  | vma :: vmas, dst, s =>
      match insertVmaStruct dst vma with
      | none => none
      | some dst =>
          match copyRange fuel s dst.pgdir src vma.vmStart vma.vmEnd true with
          | none => none
          | some (false, s) => some (false, dst, s)
          | some (true, s) => dupVmas fuel src vmas dst s

/-- `dup_mmap`. -/
def dupMmap (fuel : Nat) (s : Machine M) (dst src : MmStruct) :
    Option (Bool × MmStruct × Machine M) :=
  dupVmas fuel src.pgdir src.mmapList.reverse dst s

-- ======================================================== do_pgfault

/-- A write to a valid entry that lacks `PTE_W`: the only mapping of a page
is made writable, a page with more references is copied. -/
def copyOnWrite (s : Machine M) (mm : MmStruct) (ptep : Nat × Nat)
    (addr perm : Nat) : Option (Ret × Machine M) :=
  match pte2page (s.word ptep) with
  | none => none
  | some page =>
      if pageRef s page = 1 then
        some (.ok, s.setWord ptep (s.word ptep ||| pteW))
      else
        match pgdirAllocPage s mm.pgdir addr perm with
        | none => none
        | some (none, s) => some (.noMem, s)
        | some (some npage, s) =>
            let s := copyPage s npage page
            match pageInsert s mm.pgdir npage addr (perm ||| pteW) with
            | none => none
            | some (false, s) => some (.noMem, s)
            | some (true, s) => some (.ok, s)

/-- `perm` of `do_pgfault`. -/
def faultPerm (vma : Vma) : Nat :=
  if hasFlag vma.vmFlags vmWrite then pteU ||| readWrite else pteU

/-- What `do_pgfault` does once it has the entry. A nonzero entry that is
not valid names a page in swap, and swapping is off. -/
def resolveFault (s : Machine M) (mm : MmStruct) (ptep : Nat × Nat)
    (errorCode addr perm : Nat) : Option (Ret × Machine M) :=
  if hasFlag (s.word ptep) pteV then
    if hasFlag errorCode 2 ∧ ¬ hasFlag (s.word ptep) pteW then
      copyOnWrite s mm ptep addr perm
    else some (.ok, s)
  else if s.word ptep = 0 then
    match pgdirAllocPage s mm.pgdir addr perm with
    | none => none
    | some (none, s) => some (.noMem, s)
    | some (some _, s) => some (.ok, s)
  else some (.noMem, s)

/-- `do_pgfault`. -/
def doPgfault (s : Machine M) (mm : MmStruct) (errorCode addr : Nat) :
    Option (Ret × MmStruct × Machine M) :=
  match findVma mm addr with
  | (none, mm) => some (.inval, mm, s)
  | (some vma, mm) =>
      if addr < vma.vmStart then some (.inval, mm, s)
      else
        let perm := faultPerm vma
        let addr := rounddown addr pgsize
        match getPte s mm.pgdir addr true with
        | none => none
        | some (none, s) => some (.noMem, mm, s)
        | some (some ptep, s) =>
            match resolveFault s mm ptep errorCode addr perm with
            | none => none
            | some (ret, s) => some (ret, mm, s)

end Ucore.Cow
