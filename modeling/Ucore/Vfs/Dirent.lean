/-
Listing a directory: `file_getdirentry` of kern/fs/file.c, `iobuf_move` of
kern/fs/iobuf.c and `sfs_getdirentry` of kern/fs/sfs/sfs_inode.c.

The caller keeps an offset into the names that it was handed, which stands
for how many they were. A name in a buffer is the string in it.
-/
import Ucore.Sfs.Dir
import Ucore.Vfs.File

namespace Ucore.Vfs

open Sfs

-- ======================================================= I/O buffers

/-- `struct iobuf`, with the string at `io_base`. -/
structure Iobuf where
  base : List UInt8
  offset : Int
  len : Nat
  resid : Nat

/-- `iobuf_init`. -/
def iobufInit (base : List UInt8) (len : Nat) (offset : Int) : Iobuf where
  base := base
  offset := offset
  len := len
  resid := len

/-- `iobuf_used`. -/
def iobufUsed (iob : Iobuf) : Nat := iob.len - iob.resid

/-- `iobuf_move` of a string into the buffer. -/
def iobufMove (iob : Iobuf) (data : List UInt8) (len : Nat) :
    Except Err Unit × Iobuf :=
  let alen := if len < iob.resid then len else iob.resid
  let iob := if 0 < alen then
      { iob with base := data.take alen, offset := iob.offset + alen
                 resid := iob.resid - alen }
    else iob
  (if len - alen = 0 then .ok () else .error .noMem, iob)

-- ================================================= directory entries

/-- `sfs_dentry_size`. -/
def sfsDentrySize : Nat := sfsMaxFnameLen + 1

/-- The loop of `sfs_getdirentry_sub_nolock` over `n` slots from `i` on. -/
def sfsGetdirentrySubLoop (sin : Nat) :
    (n i slot : Nat) → SfsM (Except Err DiskEntry)
  | 0, _, _ => return .error .noEnt
  | n + 1, i, slot => do
      match ← sfsDirentReadEntry sin i with
      | .error e => return .error e
      | .ok entry =>
          if entry.ino ≠ 0 then
            if slot = 0 then return .ok entry
            else sfsGetdirentrySubLoop sin n (i + 1) (slot - 1)
          else sfsGetdirentrySubLoop sin n (i + 1) slot

/-- `sfs_getdirentry_sub_nolock`. -/
def sfsGetdirentrySubNolock (sin slot : Nat) : SfsM (Except Err DiskEntry) := do
  let node ← getSin sin
  sfsGetdirentrySubLoop sin node.din.blocks 0 slot

/-- `sfs_getdirentry`; the slot is an `int`, and compared as a `uint32_t`. -/
def sfsGetdirentry (sin : Nat) (iob : Iobuf) :
    SfsM (Except Err Unit × Iobuf) := do
  let node ← getSin sin
  if iob.offset < 0 ∨ iob.offset.toNat % sfsDentrySize ≠ 0 then
    return (.error .inval, iob)
  else
    let slot := iob.offset.toNat / sfsDentrySize % 2 ^ 32
    if node.din.blocks < slot then return (.error .noEnt, iob)
    else
      match ← sfsGetdirentrySubNolock sin slot with
      | .error e => return (.error e, iob)
      | .ok entry => return iobufMove iob entry.name sfsDentrySize

/-- `vop_getdirentry`: files and devices have no such operation. -/
def vopGetdirentry (node : Inode) (iob : Iobuf) :
    FileM (Except Err Unit × Iobuf) := do
  onVfs (inodeCheck node)
  match node with
  | .sfs ino =>
      let sin ← onVfs (onSfs (getSin ino))
      Call.assert (sin.din.type = sfsTypeDir)
      onVfs (onSfs (sfsGetdirentry ino iob))
  | .dev _ => Call.panic

-- ============================================================= calls

/-- `FS_MAX_FNAME_LEN`. -/
def fsMaxFnameLen : Nat := 255

/-- `struct dirent`. -/
structure Dirent where
  offset : Int
  name : List UInt8

/-- `file_getdirentry`: what it returns, and the dirent it leaves. -/
def fileGetdirentry (fd : Int) (direntp : Dirent) :
    FileM (Except Err Unit × Dirent) := do
  match ← fd2file fd with
  | .error e => return (.error e, direntp)
  | .ok k =>
      fdArrayAcquire k
      let file ← getFile k
      let node ← Call.ofOption file.node
      let iob := iobufInit direntp.name (fsMaxFnameLen + 1) direntp.offset
      let (ret, iob) ← vopGetdirentry node iob
      fdArrayRelease k
      if ret = .ok () then
        return (ret, { offset := direntp.offset + iobufUsed iob
                       name := iob.base })
      else return (ret, { direntp with name := iob.base })

/-- Calls of `file_getdirentry` until one fails, `fuel` of them at most: the
names they return, and the error. -/
def fileListing (fd : Int) :
    (fuel : Nat) → Dirent → FileM (List (List UInt8) × Option Err)
  | 0, _ => return ([], none)
  | fuel + 1, direntp => do
      match ← fileGetdirentry fd direntp with
      | (.error e, _) => return ([], some e)
      | (.ok _, direntp) =>
          let (names, e) ← fileListing fd fuel direntp
          return (direntp.name :: names, e)

-- ========================================================== listings

/-- The slots of a directory that are in use. -/
def usedSlots (fs : SfsFs) (i : Nat) : List Nat :=
  (List.range (inodeOf fs i).blocks).filter
    fun slot => (entryOf fs i slot).ino ≠ 0

/-- The names of a directory. -/
def listing (fs : SfsFs) (i : Nat) : List (List UInt8) :=
  (usedSlots fs i).map fun slot => (entryOf fs i slot).name

/-- The descriptor is open on the directory. -/
structure OpenDir (s : Files) (fd : Int) (i : Nat) : Prop where
  range : testfd fd
  status : (s.fdArray fd.toNat).status = .opened
  self : (s.fdArray fd.toNat).fd = fd
  node : (s.fdArray fd.toNat).node = some (.sfs i)
  count : 0 < (s.fdArray fd.toNat).openCount
  loaded : ∃ node, s.vfs.sfs.inodes i = some node
    ∧ node.din.type = sfsTypeDir
    ∧ s.vfs.opens (.sfs i) ≤ node.refCount ∧ node.refCount < maxInodeCount
  opens : 0 ≤ s.vfs.opens (.sfs i)

end Ucore.Vfs
