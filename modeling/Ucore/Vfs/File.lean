/-
kern/fs/file.c: the open files of a process.

A call goes from a descriptor to the `struct file` with its position, and
from this to the inode. What the drivers of the devices do is part of the
state, as an answer for each call.
-/
import Ucore.Sfs.Size
import Ucore.Vfs.Open

namespace Ucore.Vfs

open Sfs

-- ============================================================= state

/-- `status` of a `struct file`. -/
inductive Status where
  | none
  | init
  | opened
  | closed
deriving DecidableEq

/-- `struct file`. -/
structure File where
  status : Status
  readable : Bool
  writable : Bool
  fd : Int
  pos : Int
  node : Option Inode
  openCount : Int

/-- `FILES_STRUCT_NENTRY`: as many as fit a page after the
`struct files_struct`. -/
def filesStructNentry : Nat := (4096 - 48) / 40

/-- The file systems and `fd_array`; what `d_io` of a device returns with the
count it has moved, `d_blocks` and `d_blocksize`. -/
structure Files where
  vfs : Vfs
  fdArray : Nat → File
  dIo : Nat → Int → Nat → Bool → Except Err Nat × Nat
  /-- `stdin_io` returns the count, the other drivers do not. -/
  dIoReturns : ∀ id,
    (∀ offset len n, (dIo id offset len false).1 = .ok n → n = 0)
      ∨ ∀ offset len n, (dIo id offset len false).1 = .ok n →
        n = (dIo id offset len false).2
  dBlocks : Nat → Nat
  dBlocksize : Nat → Nat

/-- What runs on the open files. -/
abbrev FileM := Call Files

/-- A call of the file systems. -/
def onVfs {α : Type} (m : VfsM α) : FileM α := fun s =>
  (m s.vfs).map fun r => (r.1, { s with vfs := r.2 })

/-- The `struct file` with an index. -/
def getFile (k : Nat) : FileM File := do
  let s ← Call.get
  return s.fdArray k

def setFile (k : Nat) (file : File) : FileM Unit :=
  Call.modify fun s => { s with fdArray := Function.update s.fdArray k file }

-- ==================================================== the file table

/-- `NO_FD`. -/
def noFd : Int := -0x9527

/-- `testfd`. -/
def testfd (fd : Int) : Prop := 0 ≤ fd ∧ fd < filesStructNentry

instance (fd : Int) : Decidable (testfd fd) :=
  inferInstanceAs (Decidable (_ ∧ _))

/-- The end of `fd_array_alloc`. -/
def fdArrayFound (k : Nat) : FileM (Except Err Nat) := do
  let file ← getFile k
  Call.assert (file.openCount = 0)
  setFile k { file with status := .init, node := none }
  return .ok k

/-- `fd_array_alloc`. -/
def fdArrayAlloc (fd : Int) : FileM (Except Err Nat) := do
  let s ← Call.get
  if fd = noFd then
    match (List.range filesStructNentry).find?
        (fun k => (s.fdArray k).status = .none) with
    | some k => fdArrayFound k
    | none => return .error .maxOpen
  else if testfd fd then
    if (s.fdArray fd.toNat).status = .none then fdArrayFound fd.toNat
    else return .error .busy
  else return .error .inval

/-- `fd_array_free`. -/
def fdArrayFree (k : Nat) : FileM Unit := do
  let file ← getFile k
  Call.assert (file.status = .init ∨ file.status = .closed)
  Call.assert (file.openCount = 0)
  if file.status = .closed then
    let node ← Call.ofOption file.node
    onVfs (vfsClose node)
  let file ← getFile k
  setFile k { file with status := .none }

/-- `fd_array_acquire`. -/
def fdArrayAcquire (k : Nat) : FileM Unit := do
  let file ← getFile k
  Call.assert (file.status = .opened)
  setFile k { file with openCount := file.openCount + 1 }

/-- `fd_array_release`. -/
def fdArrayRelease (k : Nat) : FileM Unit := do
  let file ← getFile k
  Call.assert (file.status = .opened ∨ file.status = .closed)
  Call.assert (0 < file.openCount)
  setFile k { file with openCount := file.openCount - 1 }
  if file.openCount - 1 = 0 then fdArrayFree k

/-- `fd_array_open`. -/
def fdArrayOpen (k : Nat) : FileM Unit := do
  let file ← getFile k
  Call.assert (file.status = .init ∧ file.node ≠ none)
  setFile k { file with status := .opened, openCount := file.openCount + 1 }

/-- `fd_array_close`. -/
def fdArrayClose (k : Nat) : FileM Unit := do
  let file ← getFile k
  Call.assert (file.status = .opened)
  Call.assert (0 < file.openCount)
  setFile k { file with status := .closed, openCount := file.openCount - 1 }
  if file.openCount - 1 = 0 then fdArrayFree k

/-- `fd_array_dup`. -/
def fdArrayDup (to' from' : Nat) : FileM Unit := do
  let file ← getFile to'
  let source ← getFile from'
  Call.assert (file.status = .init ∧ source.status = .opened)
  let node ← Call.ofOption source.node
  onVfs (vopRefInc node)
  onVfs (vopOpenInc node)
  setFile to' { file with
    pos := source.pos, readable := source.readable
    writable := source.writable, node := some node }
  fdArrayOpen to'

/-- `fd2file`. -/
def fd2file (fd : Int) : FileM (Except Err Nat) := do
  let s ← Call.get
  if testfd fd ∧ (s.fdArray fd.toNat).status = .opened
      ∧ (s.fdArray fd.toNat).fd = fd then return .ok fd.toNat
  else return .error .inval

-- ============================================== operations on inodes

/-- `SFS_TYPE_LINK`. -/
def sfsTypeLink : Nat := 3

/-- `st_size` of `vop_fstat`; `sfs_gettype` panics on other types. -/
def vopFstat (node : Inode) : FileM (Except Err Nat) := do
  onVfs (inodeCheck node)
  match node with
  | .sfs ino =>
      let sin ← onVfs (onSfs (getSin ino))
      Call.assert (sin.din.type = sfsTypeDir ∨ sin.din.type = sfsTypeFile
        ∨ sin.din.type = sfsTypeLink)
      return .ok sin.din.size
  | .dev id =>
      let s ← Call.get
      return .ok (s.dBlocks id * s.dBlocksize id)

/-- `vop_read` and `vop_write`, with the count they leave in the buffer. -/
def vopReadWrite (node : Inode) (offset : Int) (len : Nat) (write : Bool) :
    FileM (Except Err Nat × Nat) := do
  onVfs (inodeCheck node)
  match node with
  | .sfs ino =>
      match ← onVfs (onSfs (vopIo ino offset len write)) with
      | .error e => return (.error e, 0)
      | .ok alen => return (.ok 0, alen)
  | .dev id =>
      let s ← Call.get
      return s.dIo id offset len write

/-- `dev_tryseek`. -/
def devTryseek (blocks blocksize : Nat) (pos : Int) : Except Err Unit :=
  if 0 < blocks ∧ pos % blocksize = 0 ∧ 0 ≤ pos ∧ pos < blocks * blocksize then
    .ok ()
  else .error .inval

/-- `vop_tryseek`. -/
def vopTryseek (node : Inode) (pos : Int) : FileM (Except Err Unit) := do
  onVfs (inodeCheck node)
  match node with
  | .sfs ino => onVfs (onSfs (Sfs.vopTryseek ino pos))
  | .dev id =>
      let s ← Call.get
      return devTryseek (s.dBlocks id) (s.dBlocksize id) pos

-- ============================================================= calls

/-- The last part of `file_open`, with the inode and the position. -/
def fileOpened (k : Nat) (flags : BitVec 32) (node : Inode) (pos : Int) :
    FileM (Except Err Int) := do
  let file ← getFile k
  setFile k { file with
    pos := pos, node := some node
    readable := decide (accmode flags = oRdonly ∨ accmode flags = oRdwr)
    writable := decide (CanWrite flags) }
  fdArrayOpen k
  return .ok file.fd

/-- `file_open`. -/
def fileOpen (path : List UInt8) (flags : BitVec 32) :
    FileM (Except Err Int) := do
  if accmode flags ≠ oRdonly ∧ ¬ CanWrite flags then return .error .inval
  else
    match ← fdArrayAlloc noFd with
    | .error e => return .error e
    | .ok k =>
        match ← onVfs (vfsOpen path flags) with
        | .error e =>
            fdArrayFree k
            return .error e
        | .ok node =>
            if given flags oAppend then
              match ← vopFstat node with
              | .error e =>
                  onVfs (vfsClose node)
                  fdArrayFree k
                  return .error e
              | .ok size => fileOpened k flags node size
            else fileOpened k flags node 0

/-- `file_close`. -/
def fileClose (fd : Int) : FileM (Except Err Unit) := do
  match ← fd2file fd with
  | .error e => return .error e
  | .ok k =>
      fdArrayClose k
      return .ok ()

/-- `file_read` and `file_write`: what they return, and the count at
`copied_store`. -/
def fileReadWrite (write : Bool) (fd : Int) (len : Nat) :
    FileM (Except Err Nat × Nat) := do
  match ← fd2file fd with
  | .error e => return (.error e, 0)
  | .ok k =>
      let file ← getFile k
      if (if write then file.writable else file.readable) = false then
        return (.error .inval, 0)
      else
        fdArrayAcquire k
        let node ← Call.ofOption file.node
        let (ret, copied) ← vopReadWrite node file.pos len write
        let file ← getFile k
        if file.status = .opened then
          setFile k { file with pos := file.pos + copied }
        fdArrayRelease k
        return (ret, copied)

/-- `file_read`. -/
def fileRead (fd : Int) (len : Nat) : FileM (Except Err Nat × Nat) :=
  fileReadWrite false fd len

/-- `file_write`. -/
def fileWrite (fd : Int) (len : Nat) : FileM (Except Err Nat × Nat) :=
  fileReadWrite true fd len

/-- `LSEEK_SET`. -/
def lseekSet : Int := 0
/-- `LSEEK_CUR`. -/
def lseekCur : Int := 1
/-- `LSEEK_END`. -/
def lseekEnd : Int := 2

/-- The position that `file_seek` asks for: an `off_t`, which wraps. -/
def seekPos (file : File) (pos whence : Int) : FileM (Except Err Int) := do
  if whence = lseekSet then return .ok pos
  else if whence = lseekCur then return .ok ((pos + file.pos).bmod (2 ^ 64))
  else if whence = lseekEnd then
    let node ← Call.ofOption file.node
    match ← vopFstat node with
    | .error e => return .error e
    | .ok size => return .ok ((pos + size).bmod (2 ^ 64))
  else return .error .inval

/-- `file_seek`. -/
def fileSeek (fd pos whence : Int) : FileM (Except Err Unit) := do
  match ← fd2file fd with
  | .error e => return .error e
  | .ok k =>
      fdArrayAcquire k
      let file ← getFile k
      match ← seekPos file pos whence with
      | .error e =>
          fdArrayRelease k
          return .error e
      | .ok pos =>
          let node ← Call.ofOption file.node
          let ret ← vopTryseek node pos
          if ret = .ok () then
            let file ← getFile k
            setFile k { file with pos := pos }
          fdArrayRelease k
          return ret

/-- `file_dup`. -/
def fileDup (fd1 fd2 : Int) : FileM (Except Err Int) := do
  match ← fd2file fd1 with
  | .error e => return .error e
  | .ok k1 =>
      match ← fdArrayAlloc fd2 with
      | .error e => return .error e
      | .ok k2 =>
          fdArrayDup k2 k1
          let file ← getFile k2
          return .ok file.fd

-- ============================================================== runs

/-- The calls of a process on its open files. -/
inductive FileCall where
  | fileOpen (path : List UInt8) (flags : BitVec 32)
  | fileClose (fd : Int)
  | fileRead (fd : Int) (len : Nat)
  | fileWrite (fd : Int) (len : Nat)
  | fileSeek (fd pos whence : Int)
  | fileDup (fd1 fd2 : Int)

/-- Whether the call succeeds, and the state it leaves. -/
def FileCall.exec (s : Files) : FileCall → Option (Bool × Files)
  | .fileOpen path flags =>
      (Vfs.fileOpen path flags s).map fun r => (r.1.isOk, r.2)
  | .fileClose fd => (Vfs.fileClose fd s).map fun r => (r.1.isOk, r.2)
  | .fileRead fd len => (Vfs.fileRead fd len s).map fun r => (r.1.1.isOk, r.2)
  | .fileWrite fd len =>
      (Vfs.fileWrite fd len s).map fun r => (r.1.1.isOk, r.2)
  | .fileSeek fd pos whence =>
      (Vfs.fileSeek fd pos whence s).map fun r => (r.1.isOk, r.2)
  | .fileDup fd1 fd2 => (Vfs.fileDup fd1 fd2 s).map fun r => (r.1.isOk, r.2)

/-- A call that succeeds. -/
def Succeeds (s : Files) (call : FileCall) (s' : Files) : Prop :=
  call.exec s = some (true, s')

/-- A write from a position past the end of its file, where the file has the
blocks for its size but not for the position. -/
def FileCall.Overhangs (s : Files) : FileCall → Prop
  | .fileWrite fd len => ∃ i,
      (s.fdArray fd.toNat).node = some (.sfs i)
        ∧ Stretches s.vfs.sfs i (s.fdArray fd.toNat).pos len true
        ∧ roundupDiv (s.fdArray fd.toNat).pos.toNat sfsBlksize
          ≠ roundupDiv (inodeOf s.vfs.sfs i).size sfsBlksize
  | _ => False

/-- A call that succeeds and is no such write. -/
def FittingCall (s : Files) (call : FileCall) (s' : Files) : Prop :=
  Succeeds s call s' ∧ ¬ call.Overhangs s

end Ucore.Vfs
