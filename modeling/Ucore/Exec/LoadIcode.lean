/-
libs/elf.h: an ELF image in the kernel's memory and the fields of its
headers.

`binary` is the address of the image; its bytes are the `size` bytes there.
The kernel reads the image through pointers, 64-bit addresses whose sums
wrap. A read that is not inside the image has no value here.

kern/process/proc.c: `load_icode`, which builds the address space of a
program from its ELF image.

Addresses and lengths are 64-bit words whose sums and differences wrap.
`kmalloc` is a parameter with its contract. What ends the kernel's run, or
leaves the bounds of the image or of a page, is a fault. The pages that
`pgdir_alloc_page` returns for segments are recorded with their addresses in
`placed`, the latest first; no function reads it. `mm_destroy` gives memory
back to `kmalloc` and no page to the allocator, so it does not appear; nor
do the lock of the `mm` and `lcr3`.
-/
import Ucore.Lib.Bytes
import Ucore.Mm.UserMem
import Mathlib.Data.Finset.Card

namespace Ucore.Exec

/-- The sum of two 64-bit words. -/
def add64 (a b : Nat) : Nat := (a + b) % 2 ^ 64

/-- The difference of two 64-bit words. -/
def sub64 (a b : Nat) : Nat := (a + (2 ^ 64 - b)) % 2 ^ 64

/-- `binary` and the bytes it points to. -/
structure Image where
  binary : Nat
  bytes : List UInt8
deriving DecidableEq

namespace Image

variable (image : Image)

/-- `size`. -/
def size : Nat := image.bytes.length

/-- The `n` bytes from an address on are bytes of the image. -/
def Inside (addr n : Nat) : Prop :=
  n = 0 ∨ image.binary ≤ addr ∧ addr + n ≤ image.binary + image.size

instance (addr n : Nat) : Decidable (image.Inside addr n) :=
  inferInstanceAs (Decidable (_ ∨ _))

/-- The byte at an address. -/
def byteAt (addr : Nat) : UInt8 := image.bytes.getD (addr - image.binary) 0

/-- A field of `n` bytes, the lowest first, if it is inside the image. -/
def field (addr n : Nat) : Option Nat :=
  if image.Inside addr n then some (getWord image.byteAt addr n) else none

end Image

-- ============================================================ elfhdr

/-- `ELF_MAGIC`. -/
def elfMagic : Nat := 0x464C457F

/-- `sizeof(struct elfhdr)`. -/
def elfhdrSize : Nat := 64

namespace Image

variable (image : Image)

/-- `elf->e_magic`. -/
def eMagic : Option Nat := image.field image.binary 4
/-- `elf->e_entry`. -/
def eEntry : Option Nat := image.field (add64 image.binary 24) 8
/-- `elf->e_phoff`. -/
def ePhoff : Option Nat := image.field (add64 image.binary 32) 8
/-- `elf->e_phnum`. -/
def ePhnum : Option Nat := image.field (add64 image.binary 56) 2

end Image

-- =========================================================== proghdr

/-- `ELF_PT_LOAD`. -/
def elfPtLoad : Nat := 1
/-- `ELF_PF_X`. -/
def elfPfX : Nat := 1
/-- `ELF_PF_W`. -/
def elfPfW : Nat := 2
/-- `ELF_PF_R`. -/
def elfPfR : Nat := 4

/-- `sizeof(struct proghdr)`. -/
def proghdrSize : Nat := 56

/-- The fields of `struct proghdr` that are read after `p_type`. -/
structure Proghdr where
  pFlags : Nat
  pOffset : Nat
  pVa : Nat
  pFilesz : Nat
  pMemsz : Nat
deriving DecidableEq

namespace Image

variable (image : Image)

/-- `ph->p_type`. -/
def pType (ph : Nat) : Option Nat := image.field ph 4

/-- The other fields of the program header at `ph`. -/
def proghdr (ph : Nat) : Option Proghdr := do
  let pFlags ← image.field (add64 ph 4) 4
  let pOffset ← image.field (add64 ph 8) 8
  let pVa ← image.field (add64 ph 16) 8
  let pFilesz ← image.field (add64 ph 32) 8
  let pMemsz ← image.field (add64 ph 40) 8
  some { pFlags, pOffset, pVa, pFilesz, pMemsz }

end Image

end Ucore.Exec

namespace Ucore.Exec

open Mm

variable {M : PmmManager}

-- =========================================================== kmalloc

/-- `kmalloc` of a structure, with its contract: it takes a page from the
allocator or none, and fails only when no page is free. `false` is
`NULL`. -/
structure Kmalloc (M : PmmManager) where
  kmalloc : M.State → Bool × M.State
  kmalloc_spec : ∀ σ, M.freeSet (kmalloc σ).2 ⊆ M.freeSet σ
    ∧ (M.freeSet σ).card ≤ (M.freeSet (kmalloc σ).2).card + 1
  kmalloc_some : ∀ σ, (M.freeSet σ).Nonempty → (kmalloc σ).1 = true

-- ======================================================== the layout

/-- `USTACKTOP`. -/
def ustacktop : Nat := usertop
/-- `USTACKSIZE`. -/
def ustacksize : Nat := 256 * pgsize

/-- `SSTATUS_SPIE`. -/
def sstatusSpie : Nat := 0x20
/-- `SSTATUS_SPP`. -/
def sstatusSpp : Nat := 0x100

/-- `boot_pgdir`, as kern/init/entry.S lays it out: its last entry maps
the kernel, all others are 0. -/
def bootPgdir (i : Nat) : Nat :=
  if i = 511 then (0x80000 <<< 10) ||| 0xcf else 0

-- ========================================================= the state

/-- What a run can end in before `load_icode` returns. -/
inductive Fault where
  /-- `current->mm` is not null. -/
  | mm
  /-- The image is read outside its bytes. -/
  | outside
  /-- A page is written past its end. -/
  | overrun
  /-- `page` is used before it is set. -/
  | uninit
  /-- The assertion about `start`, `end` and `la`. -/
  | cursor
  /-- The assertion that a stack page was allocated. -/
  | stack
  /-- A panic of kern/mm. -/
  | panic
  /-- A loop that goes on. -/
  | diverged
deriving DecidableEq

/-- 0, `-E_INVAL`, `-E_NO_MEM` or `-E_INVAL_ELF`. -/
inductive LoadRet where
  | ok
  | inval
  | noMem
  | invalElf
deriving DecidableEq

/-- What `mm_map` returns, as `ret`. -/
def LoadRet.ofRet : Ret → LoadRet
  | .ok => .ok
  | .inval => .inval
  | .noMem => .noMem

/-- `struct trapframe`; `gpr` by register number. -/
structure Trapframe where
  gpr : Nat → Nat
  status : Nat
  epc : Nat
  tval : Nat
  cause : Nat

/-- What `load_icode` uses of `current`. -/
structure Current where
  mm : Option MmStruct
  cr3 : Nat
  tf : Trapframe

/-- `mm`, the machine, and the pages of segments. -/
structure Load (M : PmmManager) where
  mm : MmStruct
  machine : Machine M
  placed : List (Nat × Nat)

/-- The variables of a segment: `start`, `la`, `from` and `page`. -/
structure Cursor where
  start : Nat
  la : Nat
  src : Nat
  page : Option Nat

-- ======================================================== page bytes

/-- `n` bytes of a page are written, from `off` on. -/
def storeBytes (s : Machine M) (page off : Nat) (data : Nat → UInt8)
    (n : Nat) : Machine M :=
  { s with mem :=
    Function.update s.mem page (putBytes (s.mem page) off data n) }

/-- `memcpy(page2kva(page) + off, from, size)`. -/
def copyIn (image : Image) (s : Machine M) (page off src size : Nat) :
    Except Fault (Machine M) :=
  if ¬ image.Inside src size then .error .outside
  else if pgsize < off + size then .error .overrun
  else .ok (storeBytes s page off (fun k => image.byteAt (src + k)) size)

/-- `memset(page2kva(page) + off, 0, size)`. -/
def clear (s : Machine M) (page off size : Nat) : Except Fault (Machine M) :=
  if pgsize < off + size then .error .overrun
  else .ok (storeBytes s page off (fun _ => 0) size)

-- ========================================================= a segment

/-- `vm_flags` of a segment. -/
def vmFlags (pFlags : Nat) : Nat :=
  (if hasFlag pFlags elfPfX then vmExec else 0)
    ||| (if hasFlag pFlags elfPfW then vmWrite else 0)
    ||| if hasFlag pFlags elfPfR then vmRead else 0

/-- `perm` of a segment. -/
def perm (vmFlags : Nat) : Nat :=
  (pteU ||| pteV) ||| (if hasFlag vmFlags vmRead then pteR else 0)
    ||| (if hasFlag vmFlags vmWrite then pteW ||| pteR else 0)
    ||| if hasFlag vmFlags vmExec then pteX else 0

/-- The rounds of a loop that allocates the page at `la` and fills it from
`start` on, up to `last` at most. `false` is a null page. -/
def fillPages
    (fill : Machine M → (page off src size : Nat) → Except Fault (Machine M))
    (perm last : Nat) :
    (fuel : Nat) → Cursor → Load M → Except Fault (Bool × Cursor × Load M)
  | 0, _, _ => .error .diverged
  | fuel + 1, c, l =>
      if c.start < last then
        match pgdirAllocPage l.machine l.mm.pgdir c.la perm with
        | none => .error .panic
        | some (none, s) => .ok (false, c, { l with machine := s })
        | some (some page, s) =>
            let off := sub64 c.start c.la
            let size := sub64 pgsize off
            let la := add64 c.la pgsize
            let size := if last < la then sub64 size (sub64 la last) else size
            match fill s page off c.src size with
            | .error e => .error e
            | .ok s =>
                fillPages fill perm last fuel
                  { start := add64 c.start size, la := la
                    src := add64 c.src size, page := some page }
                  { l with machine := s, placed := (c.la, page) :: l.placed }
      else .ok (true, c, l)

/-- Every round maps a page of its own, so that a loop has fewer rounds
than there are pages. -/
def rounds : Nat := npage - nbase + 1

/-- The loop over the file part of a segment. -/
def filePages (image : Image) (perm last : Nat) (c : Cursor) (l : Load M) :
    Except Fault (Bool × Cursor × Load M) :=
  fillPages (copyIn image) perm last rounds c l

/-- The loop over the pages after it. -/
def zeroPages (perm last : Nat) (c : Cursor) (l : Load M) :
    Except Fault (Bool × Cursor × Load M) :=
  fillPages (fun s page off _ size => clear s page off size) perm last rounds
    c l

/-- The rest of the last page of the file part, where `start < la`. -/
def zeroRest (last : Nat) (c : Cursor) (l : Load M) :
    Except Fault (Cursor × Load M) :=
  let off := sub64 (add64 c.start pgsize) c.la
  let size := sub64 pgsize off
  let size := if last < c.la then sub64 size (sub64 c.la last) else size
  match c.page with
  | none => .error .uninit
  | some page =>
      match clear l.machine page off size with
      | .error e => .error e
      | .ok s =>
          let start := add64 c.start size
          if (last < c.la ∧ start = last) ∨ (c.la ≤ last ∧ start = c.la) then
            .ok ({ c with start := start }, { l with machine := s })
          else .error .cursor

/-- The part of a segment after the file's bytes. -/
def loadBss (perm last : Nat) (c : Cursor) (l : Load M) :
    Except Fault (Bool × Load M) :=
  if c.start < c.la then
    if c.start = last then .ok (true, l)
    else
      match zeroRest last c l with
      | .error e => .error e
      | .ok (c, l) =>
          (zeroPages perm last c l).map fun r => (r.1, r.2.2)
  else (zeroPages perm last c l).map fun r => (r.1, r.2.2)

/-- The pages of a segment: the file's bytes, then zeros. `false` is
`-E_NO_MEM`. -/
def loadSegment (image : Image) (ph : Proghdr) (l : Load M) :
    Except Fault (Bool × Load M) :=
  let perm := perm (vmFlags ph.pFlags)
  let cursor : Cursor :=
    { start := ph.pVa, la := rounddown ph.pVa pgsize
      src := add64 image.binary ph.pOffset, page := none }
  match filePages image perm (add64 ph.pVa ph.pFilesz) cursor l with
  | .error e => .error e
  | .ok (false, _, l) => .ok (false, l)
  | .ok (true, c, l) => loadBss perm (add64 ph.pVa ph.pMemsz) c l

-- =================================================== program headers

/-- `mm_map`, which calls `kmalloc` unless it rejects the range. -/
def mapArea (K : Kmalloc M) (l : Load M) (addr len flags : Nat) :
    Option (Ret × Load M) :=
  let (room, pmm) := K.kmalloc l.machine.pmm
  match mmMap room l.mm addr len flags with
  | none => none
  | some (.inval, mm) => some (.inval, { l with mm := mm })
  | some (ret, mm) =>
      some (ret, { l with mm := mm, machine := { l.machine with pmm := pmm } })

/-- A round of the loop over the program headers. -/
def loadPh (K : Kmalloc M) (image : Image) (ph : Nat) (l : Load M) :
    Except Fault (LoadRet × Load M) :=
  match image.pType ph with
  | none => .error .outside
  | some type =>
      if type ≠ elfPtLoad then .ok (.ok, l)
      else
        match image.proghdr ph with
        | none => .error .outside
        | some ph =>
            if ph.pMemsz < ph.pFilesz then .ok (.invalElf, l)
            else
              match mapArea K l ph.pVa ph.pMemsz (vmFlags ph.pFlags) with
              | none => .error .panic
              | some (.ok, l) =>
                  (loadSegment image ph l).map fun r =>
                    (if r.1 then .ok else .noMem, r.2)
              | some (ret, l) => .ok (.ofRet ret, l)

/-- The loop over the program headers. -/
def loadPhs (K : Kmalloc M) (image : Image) (phEnd : Nat) :
    (fuel : Nat) → (ph : Nat) → Load M → Except Fault (LoadRet × Load M)
  | 0, _, _ => .error .diverged
  | fuel + 1, ph, l =>
      if ph < phEnd then
        match loadPh K image ph l with
        | .ok (.ok, l) => loadPhs K image phEnd fuel (add64 ph proghdrSize) l
        | r => r
      else .ok (.ok, l)

-- ======================================================== load_icode

/-- `setup_pgdir`: the page directory, a copy of `boot_pgdir`. -/
def setupPgdir (s : Machine M) : Option (Nat × Machine M) :=
  match allocPage s with
  | none => none
  | some (page, s) =>
      some (page, { s with mem := Function.update s.mem page bootPgdir })

/-- `put_pgdir`. -/
def putPgdir (s : Machine M) (mm : MmStruct) : Machine M :=
  freePage s mm.pgdir

/-- What `load_icode` leaves. -/
structure Loaded (M : PmmManager) where
  ret : LoadRet
  current : Current
  machine : Machine M
  placed : List (Nat × Nat)

/-- From `bad_cleanup_mmap` on. -/
def cleanup (current : Current) (ret : LoadRet) (l : Load M) :
    Except Fault (Loaded M) :=
  match exitMmap l.machine l.mm with
  | none => .error .panic
  | some s =>
      .ok { ret, current, machine := putPgdir s l.mm, placed := l.placed }

/-- A page of the stack, which is asserted to be there. -/
def stackPage (pgdir la : Nat) (s : Machine M) : Except Fault (Machine M) :=
  match pgdirAllocPage s pgdir la pteUser with
  | none => .error .panic
  | some (none, _) => .error .stack
  | some (some _, s) => .ok s

/-- The four pages of the stack. -/
def stackPages (pgdir : Nat) (s : Machine M) : Except Fault (Machine M) :=
  [1, 2, 3, 4].foldlM
    (fun s k => stackPage pgdir (ustacktop - k * pgsize) s) s

/-- The trapframe of the new program; all but `sstatus` is cleared. -/
def setupFrame (tf : Trapframe) (entry : Nat) : Trapframe where
  gpr := fun r => if r = 2 then ustacktop else 0
  status := tf.status &&& (2 ^ 64 - 1 - (sstatusSpp ||| sstatusSpie))
  epc := entry
  tval := 0
  cause := 0

/-- From `(4)` on: the stack, `current` and the trapframe. -/
def startProgram (K : Kmalloc M) (image : Image) (current : Current)
    (l : Load M) : Except Fault (Loaded M) :=
  match mapArea K l (ustacktop - ustacksize) ustacksize
      (vmRead ||| vmWrite ||| vmStack) with
  | none => .error .panic
  | some (.ok, l) =>
      match stackPages l.mm.pgdir l.machine with
      | .error e => .error e
      | .ok s =>
          match image.eEntry with
          | none => .error .outside
          | some entry =>
              let mm := { l.mm with mmCount := l.mm.mmCount + 1 }
              .ok {
                ret := .ok
                current := {
                  mm := some mm
                  cr3 := mm.pgdir * pgsize
                  tf := setupFrame current.tf entry }
                machine := s
                placed := l.placed }
  | some (ret, l) => cleanup current (.ofRet ret) l

/-- `load_icode`. -/
def loadIcode (K : Kmalloc M) (image : Image) (current : Current)
    (s : Machine M) : Except Fault (Loaded M) :=
  if current.mm.isSome then .error .mm
  else
    let (room, pmm) := K.kmalloc s.pmm
    let s := { s with pmm := pmm }
    if !room then .ok { ret := .noMem, current, machine := s, placed := [] }
    else
      match setupPgdir s with
      | none => .ok { ret := .noMem, current, machine := s, placed := [] }
      | some (pgdir, s) =>
          let mm := mmCreate pgdir
          match image.ePhoff, image.eMagic with
          | some phoff, some magic =>
              if magic ≠ elfMagic then
                .ok {
                  ret := .invalElf, current
                  machine := putPgdir s mm, placed := [] }
              else
                match image.ePhnum with
                | none => .error .outside
                | some phnum =>
                    let ph := add64 image.binary phoff
                    let phEnd := add64 ph (phnum * proghdrSize)
                    match loadPhs K image phEnd (phnum + 1) ph
                        { mm := mm, machine := s, placed := [] } with
                    | .error e => .error e
                    | .ok (.ok, l) => startProgram K image current l
                    | .ok (ret, l) => cleanup current ret l
          | _, _ => .error .outside

end Ucore.Exec
