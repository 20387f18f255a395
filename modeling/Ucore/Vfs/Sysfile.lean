/-
kern/fs/sysfile.c: a read goes through a buffer of the kernel, a piece at a
time, and is then copied to the user.

Of `copy_to_user` only the check is here, not the bytes. `kmalloc` succeeds.
-/
import Ucore.Mm.UserMem
import Ucore.Vfs.File

namespace Ucore.Vfs

open Sfs

/-- `IOBUF_SIZE`. -/
def iobufSize : Nat := 4096

/-- `file_testfd`. -/
def fileTestfd (fd : Int) (readable writable : Bool) : FileM Bool := do
  match ← fd2file fd with
  | .error _ => return false
  | .ok k =>
      let file ← getFile k
      if readable ∧ ¬ file.readable then return false
      else if writable ∧ ¬ file.writable then return false
      else return true

/-- `copy_to_user`. -/
def copyToUser (mm : Option Mm.MmStruct) (dst len : Nat) :
    Bool × Option Mm.MmStruct :=
  Mm.userMemCheck mm dst len true

/-- What the loop of `sysfile_read` ends with: `ret`, `copied` and the address
space. -/
structure ReadOut where
  ret : Except Err Nat
  copied : Nat
  mm : Option Mm.MmStruct

/-- The loop of `sysfile_read`, if it ends within the rounds. -/
def sysfileReadLoop (fd : Int) :
    (rounds : Nat) → (mm : Option Mm.MmStruct) → (base len copied : Nat) →
      FileM ReadOut
  | 0, mm, _, len, copied => do
      Call.assert (len = 0)
      return ⟨.ok 0, copied, mm⟩
  | rounds + 1, mm, base, len, copied =>
      if len ≠ 0 then do
        let (ret, alen) ← fileRead fd (min iobufSize len)
        if alen ≠ 0 then
          let (done, mm) := copyToUser mm base alen
          if done then
            Call.assert (alen ≤ len)
            if ret ≠ .ok 0 then return ⟨ret, copied + alen, mm⟩
            else
              sysfileReadLoop fd rounds mm (base + alen) (len - alen)
                (copied + alen)
          else if ret = .ok 0 then return ⟨.error .inval, copied, mm⟩
          else return ⟨ret, copied, mm⟩
        else return ⟨ret, copied, mm⟩
      else return ⟨.ok 0, copied, mm⟩

/-- `sysfile_read`, by a process with the address space `mm`. Each round but
the last moves a byte at least, so `len` of them are enough. -/
def sysfileRead (mm : Option Mm.MmStruct) (fd : Int) (base len : Nat) :
    FileM (Except Err Nat × Option Mm.MmStruct) := do
  if len = 0 then return (.ok 0, mm)
  else
    if ← fileTestfd fd true false then
      let out ← sysfileReadLoop fd len mm base len 0
      if out.copied ≠ 0 then return (.ok out.copied, out.mm)
      else return (out.ret, out.mm)
    else return (.error .inval, mm)

-- ============================================== what a read delivers

/-- The number of bytes that a read reports as copied. -/
def reported : Except Err Nat → Nat
  | .ok n => n
  | .error _ => 0

/-- The descriptor is open for reading. -/
def OpenForRead (s : Files) (fd : Int) : Prop :=
  testfd fd ∧ (s.fdArray fd.toNat).status = .opened
    ∧ (s.fdArray fd.toNat).fd = fd ∧ (s.fdArray fd.toNat).readable = true

instance (s : Files) (fd : Int) : Decidable (OpenForRead s fd) :=
  inferInstanceAs (Decidable (_ ∧ _))

/-- What a read at a position moves, with what it returns. A file of the volume
delivers nothing, as the part of `sfs_io_nolock` that moves data is not
written. -/
def delivers (s : Files) (fd pos : Int) (len : Nat) : Except Err Nat × Nat :=
  match (s.fdArray fd.toNat).node with
  | some (.dev id) => s.dIo id pos len false
  | _ => (.ok 0, 0)

/-- The pieces that the descriptor has for a reader of `len` bytes and leaves
it to the reader to count. -/
def pieces (s : Files) (fd : Int) : (rounds : Nat) → Int → Nat → List Nat
  | 0, _, _ => []
  | rounds + 1, pos, len =>
      if len = 0 then []
      else
        match delivers s fd pos (min iobufSize len) with
        | (_, 0) => []
        | (.error _, n) => [n]
        | (.ok 0, n) => n :: pieces s fd rounds (pos + n) (len - n)
        | (.ok _, _) => []

/-- The user may write where the pieces go, one behind the other. -/
def Lands : List Nat → Option Mm.MmStruct → Nat → Prop
  | [], _, _ => True
  | n :: ns, mm, base => (copyToUser mm base n).1 = true
      ∧ Lands ns (copyToUser mm base n).2 (base + n)

/-- Every piece of a read is copied. -/
def ReadLands (s : Files) (mm : Option Mm.MmStruct) (fd : Int)
    (base len : Nat) : Prop :=
  OpenForRead s fd →
    Lands (pieces s fd len (s.fdArray fd.toNat).pos len) mm base

end Ucore.Vfs
