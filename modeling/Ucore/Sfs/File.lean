/-
kern/fs/sfs/sfs_inode.c: the operations on files, and calls of them one
after the other.

The body of the loop of `sfs_io_nolock` is an exercise that is left open, so
no byte is moved; what is left of it are the checks and the size it sets.

Memory and disk of a mounted volume: what agrees while nothing is marked
dirty, what a second mount gives, and the calls that break it.
-/
import Ucore.Sfs.Account
import Ucore.Sfs.Mount
import Mathlib.Algebra.Group.Int.Defs

namespace Ucore.Sfs

-- ================================================== reading, writing

/-- `endpos` of `sfs_io_nolock`: an `off_t`, which wraps. -/
def ioEndpos (offset : Int) (alen : Nat) : Int := (offset + alen).bmod (2 ^ 64)

/-- `sfs_io_nolock`: what it returns, and the count at `alenp`. -/
def sfsIoNolock (sin : Nat) (offset : Int) (alen : Nat) (write : Bool) :
    SfsM (Except Err Nat) := do
  let node ← getSin sin
  Call.assert (node.din.type ≠ sfsTypeDir)
  let endpos := ioEndpos offset alen
  if offset < 0 ∨ sfsMaxFileSize ≤ offset ∨ endpos < offset then
    return .error .inval
  else if offset = endpos then return .ok 0
  else if write = false ∧ node.din.size ≤ offset then return .ok 0
  else
    if node.din.size < offset then
      setSin sin { node with
        din := { node.din with size := offset.toNat }, dirty := true }
    return .ok 0

/-- `vop_read` and `vop_write`: directories have no such operations. -/
def vopIo (sin : Nat) (offset : Int) (alen : Nat) (write : Bool) :
    SfsM (Except Err Nat) := do
  let node ← getSin sin
  Call.assert (node.din.type = sfsTypeFile)
  sfsIoNolock sin offset alen write

/-- `sfs_tryseek`. -/
def sfsTryseek (sin : Nat) (pos : Int) : SfsM (Except Err Unit) := do
  if pos < 0 ∨ sfsMaxFileSize ≤ pos then return .error .inval
  else
    let node ← getSin sin
    if node.din.size < pos then vopTruncate sin pos
    else return .ok ()

/-- `vop_tryseek`: directories have no such operation. -/
def vopTryseek (sin : Nat) (pos : Int) : SfsM (Except Err Unit) := do
  let node ← getSin sin
  Call.assert (node.din.type = sfsTypeFile)
  sfsTryseek sin pos

/-- `sizeof(struct sfs_disk_entry)`. -/
def sizeofDiskEntry : Nat := 260

/-- `sfs_dirent_read_nolock`, without the entry it reads. -/
def sfsDirentReadNolock (sin slot : Nat) : SfsM (Except Err Unit) := do
  let node ← getSin sin
  Call.assert (node.din.type = sfsTypeDir ∧ slot < node.din.blocks)
  match ← sfsBmapLoadNolock sin slot with
  | .error e => return .error e
  | .ok ino =>
      let inuse ← sfsBlockInuse ino
      Call.assert (inuse = true)
      let _ ← sfsRbuf sizeofDiskEntry ino 0
      return .ok ()

-- ============================================================= calls

/-- Calls on a mounted volume. A file is closed by `fsync`, and directories
are searched and listed by reading their entries. -/
inductive FileOp where
  | loadInode (ino : Nat)
  | refInc (sin : Nat)
  | refDec (sin : Nat)
  | direntRead (sin slot : Nat)
  | io (sin : Nat) (offset : Int) (alen : Nat) (write : Bool)
  | tryseek (sin : Nat) (pos : Int)
  | truncate (sin : Nat) (len : Int)
  | fsync (sin : Nat)
  | sync (inodeList : List Nat)

/-- The state a call that returns leaves. -/
def FileOp.exec (fs : SfsFs) : FileOp → Option SfsFs
  | .loadInode ino => (sfsLoadInode ino fs).map Prod.snd
  | .refInc sin => (inodeRefInc sin fs).map Prod.snd
  | .refDec sin => (inodeRefDec sin fs).map Prod.snd
  | .direntRead sin slot => (sfsDirentReadNolock sin slot fs).map Prod.snd
  | .io sin offset alen write => (vopIo sin offset alen write fs).map Prod.snd
  | .tryseek sin pos => (vopTryseek sin pos fs).map Prod.snd
  | .truncate sin len => (vopTruncate sin len fs).map Prod.snd
  | .fsync sin => (sfsFsync sin fs).map Prod.snd
  | .sync inodeList => (sfsSync inodeList fs).map Prod.snd

/-- The inodes after a call: one whose last reference goes while it has no
links is gone. -/
def FileOp.filesAfter (v : Volume) (fs' : SfsFs) : FileOp → Finset Nat
  | .refDec sin =>
      if (fs'.inodes sin).isNone ∧ (inodeOf v.fs sin).nlinks = 0 then
        v.files.erase sin
      else v.files
  | _ => v.files

/-- The list holds the inodes in memory. -/
def InodeList (fs : SfsFs) (inodeList : List Nat) : Prop :=
  ∀ i, i ∈ inodeList ↔ fs.inodes i ≠ none

/-- What the callers of a call see to: inodes are loaded by the numbers of
files, and `sfs_sync` goes over the inodes in memory. -/
def FileOp.Legal (v : Volume) : FileOp → Prop
  | .loadInode ino => ino ∈ v.files
  | .sync inodeList => InodeList v.fs inodeList
  | _ => True

/-- A call that returns. -/
inductive FileStep : Volume → FileOp → Volume → Prop
  | call {v : Volume} {op : FileOp} {fs' : SfsFs} :
      op.Legal v → op.exec v.fs = some fs' →
      FileStep v op ⟨fs', op.filesAfter v fs'⟩

-- ========================================================= agreement

/-- The inode in memory is that on disk, if it is not dirty. -/
def OnDisk (fs : SfsFs) (i : Nat) : Prop :=
  ∀ node, fs.inodes i = some node → node.dirty = false →
    node.din = DiskInode.ofBytes (fs.disk i)

/-- The super block and the free map on disk are those in memory: reading
the map changes none of its words. -/
structure SuperOnDisk (fs : SfsFs) : Prop where
  super : SfsSuper.ofBytes (fs.disk sfsBlknSuper) = fs.super
  freemap : sfsInitFreemap fs.freemap (sfsFreemapBlocks fs.super) fs.disk
    = some fs.freemap

/-- Memory and disk agree on what is not dirty. -/
structure Agree (fs : SfsFs) : Prop where
  inode : ∀ i, OnDisk fs i
  super : fs.superDirty = false → SuperOnDisk fs

/-- The volume `fs'` has the blocks, the sizes and the block maps of `v`. -/
structure SameVolume (v : Volume) (fs' : SfsFs) : Prop where
  super : fs'.super = v.fs.super
  freemap : ∀ {b}, b < sfsFreemapBits v.fs.super →
    fs'.freemap.bit b = v.fs.freemap.bit b
  inode : ∀ {i}, i ∈ v.files → inodeOf fs' i = inodeOf v.fs i
  target : ∀ {i}, i ∈ v.files → ∀ pos, target fs' i pos = target v.fs i pos

/-- After `sfs_sync` the device mounts as the same volume. -/
def Remounts (dev : Device) (v : Volume) : Prop :=
  ∀ inodeList fs', InodeList v.fs inodeList →
    sfsSync inodeList v.fs = some (.ok (), fs') →
    ∃ fs'', sfsDoMount dev fs'.disk = some (.ok fs'') ∧ SameVolume v fs''

-- ======================================================= torn growth

/-- The next block of the file has its entry in the indirect block, which
the inode has. -/
def InIndirect (din : DiskInode) : Prop :=
  sfsNdirect ≤ din.blocks ∧ din.indirect ≠ 0

/-- To grow the file to `len` bytes takes more blocks than are free, and the
inode, which is not dirty, is not marked for those it gets: their entries
are in the indirect block it has. -/
def Torn (fs : SfsFs) (i : Nat) (len : Int) : Prop :=
  ∃ node, fs.inodes i = some node ∧ node.dirty = false
    ∧ InIndirect node.din ∧ 0 < fs.super.unusedBlocks
    ∧ 0 ≤ len ∧ len ≤ sfsMaxFileSize ∧ node.din.size ≠ len
    ∧ node.din.blocks + fs.super.unusedBlocks
      < roundupDiv len.toNat sfsBlksize

/-- The calls that grow a file so. -/
def FileOp.Torn (fs : SfsFs) : FileOp → Prop
  | .truncate sin len => Sfs.Torn fs sin len
  | .tryseek sin pos =>
      pos < sfsMaxFileSize ∧ (inodeOf fs sin).size < pos ∧ Sfs.Torn fs sin pos
  | _ => False

/-- A call that returns and is not such a one. -/
def WholeStep (v : Volume) (op : FileOp) (v' : Volume) : Prop :=
  FileStep v op v' ∧ ¬ op.Torn v.fs

end Ucore.Sfs
