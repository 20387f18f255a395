/-
kern/fs/sfs/sfs_inode.c: blocks, inodes and the block map of a file; and
the reference counts of kern/fs/vfs/inode.c that reclaim inodes.

An inode in memory is named by its inode number. `kmalloc` succeeds.
-/
import Ucore.Sfs.Fs
import Mathlib.Data.Int.Notation

namespace Ucore.Sfs

-- ============================================================ blocks

/-- `sfs_block_inuse`. -/
def sfsBlockInuse (ino : Nat) : SfsM Bool := do
  let fs ← Call.get
  Call.assert (ino ≠ 0 ∧ ino < fs.super.blocks)
  let free ← Call.ofOption (bitmapTest fs.freemap ino)
  return !free

/-- `sfs_block_alloc`. -/
def sfsBlockAlloc : SfsM (Except Err Nat) := do
  let fs ← Call.get
  match ← Call.ofOption (bitmapAlloc fs.freemap) with
  | none => return .error .noMem
  | some (ino, freemap) =>
      Call.assert (0 < fs.super.unusedBlocks)
      let super := { fs.super with unusedBlocks := fs.super.unusedBlocks - 1 }
      Call.modify fun fs => { fs with
        freemap := freemap, super := super, superDirty := true }
      let inuse ← sfsBlockInuse ino
      Call.assert (inuse = true)
      sfsClearBlock ino
      return .ok ino

/-- `sfs_block_free`. -/
def sfsBlockFree (ino : Nat) : SfsM Unit := do
  let inuse ← sfsBlockInuse ino
  Call.assert (inuse = true)
  let fs ← Call.get
  let freemap ← Call.ofOption (bitmapFree fs.freemap ino)
  let super := { fs.super with unusedBlocks := fs.super.unusedBlocks + 1 }
  Call.modify fun fs => { fs with
    freemap := freemap, super := super, superDirty := true }

-- ================================================== inodes in memory

/-- The fields a pointer to an inode leads to. -/
def getSin (sin : Nat) : SfsM SfsInode := do
  let fs ← Call.get
  Call.ofOption (fs.inodes sin)

/-- A store through such a pointer. -/
def setSin (sin : Nat) (node : SfsInode) : SfsM Unit :=
  Call.modify fun fs => { fs with
    inodes := Function.update fs.inodes sin (some node) }

/-- `inode_ref_inc`. -/
def inodeRefInc (sin : Nat) : SfsM Int := do
  let node ← getSin sin
  setSin sin { node with refCount := node.refCount + 1 }
  return node.refCount + 1

/-- `lookup_sfs_nolock`: whether the inode is in memory. -/
def lookupSfsNolock (ino : Nat) : SfsM Bool := do
  let fs ← Call.get
  match fs.inodes ino with
  | none => return false
  | some _ =>
      let refs ← inodeRefInc ino
      if refs = 1 then
        let node ← getSin ino
        setSin ino { node with reclaimCount := node.reclaimCount + 1 }
      return true

/-- `sfs_create_inode` and `sfs_set_links`. -/
def sfsCreateInode (din : DiskInode) (ino : Nat) : SfsM Unit := do
  Call.assert (din.type = sfsTypeDir ∨ din.type = sfsTypeFile)
  setSin ino { din := din, dirty := false, reclaimCount := 1, refCount := 1 }

/-- `sfs_load_inode`. -/
def sfsLoadInode (ino : Nat) : SfsM Unit := do
  let found ← lookupSfsNolock ino
  if found then return ()
  else
    let inuse ← sfsBlockInuse ino
    Call.assert (inuse = true)
    let buf ← sfsRbuf sizeofDiskInode ino 0
    let din := DiskInode.ofBytes buf
    Call.assert (din.nlinks ≠ 0)
    sfsCreateInode din ino

-- ===================================================== the block map

/-- The last part of `sfs_bmap_get_sub_nolock`: a block for the entry at
`offset` of the indirect block `ent`. It gives a new indirect block back
if there is none. -/
def bmapAddEntry (entp ent offset : Nat) : SfsM (Except Err (Nat × Nat)) := do
  match ← sfsBlockAlloc with
  | .error e =>
      if ent ≠ entp then sfsBlockFree ent
      return .error e
  | .ok ino =>
      sfsWbuf (wordByte ino) 4 ent offset
      return .ok (ent, ino)

/-- `sfs_bmap_get_sub_nolock`: what it stores in `*entp` and the block. -/
def sfsBmapGetSubNolock (entp index : Nat) (create : Bool) :
    SfsM (Except Err (Nat × Nat)) := do
  Call.assert (index < sfsBlkNentry)
  let offset := index * 4
  if entp ≠ 0 then
    let buf ← sfsRbuf 4 entp offset
    let ino := getWord buf 0 4
    if ino ≠ 0 ∨ create = false then return .ok (entp, ino)
    else bmapAddEntry entp entp offset
  else if create = false then return .ok (entp, 0)
  else
    match ← sfsBlockAlloc with
    | .error e => return .error e
    | .ok ent => bmapAddEntry entp ent offset

/-- The end of `sfs_bmap_get_nolock`. -/
def bmapGetOut (ino : Nat) : SfsM (Except Err Nat) := do
  if ino ≠ 0 then
    let inuse ← sfsBlockInuse ino
    Call.assert (inuse = true)
  return .ok ino

/-- `sfs_bmap_get_nolock`. -/
def sfsBmapGetNolock (sin index : Nat) (create : Bool) :
    SfsM (Except Err Nat) := do
  let node ← getSin sin
  let din := node.din
  if h : index < sfsNdirect then
    if din.direct ⟨index, h⟩ = 0 ∧ create = true then
      match ← sfsBlockAlloc with
      | .error e => return .error e
      | .ok ino =>
          let direct := Function.update din.direct ⟨index, h⟩ ino
          setSin sin { node with
            din := { din with direct := direct }, dirty := true }
          bmapGetOut ino
    else bmapGetOut (din.direct ⟨index, h⟩)
  else
    let index := index - sfsNdirect
    if index < sfsBlkNentry then
      match ← sfsBmapGetSubNolock din.indirect index create with
      | .error e => return .error e
      | .ok (ent, ino) =>
          if ent ≠ din.indirect then
            Call.assert (din.indirect = 0)
            setSin sin { node with
              din := { din with indirect := ent }, dirty := true }
          bmapGetOut ino
    else Call.panic

/-- `sfs_bmap_free_sub_nolock`. -/
def sfsBmapFreeSubNolock (ent index : Nat) : SfsM Unit := do
  let inuse ← sfsBlockInuse ent
  Call.assert (inuse = true ∧ index < sfsBlkNentry)
  let offset := index * 4
  let buf ← sfsRbuf 4 ent offset
  let ino := getWord buf 0 4
  if ino ≠ 0 then
    sfsWbuf (wordByte 0) 4 ent offset
    sfsBlockFree ino

/-- `sfs_bmap_free_nolock`. -/
def sfsBmapFreeNolock (sin index : Nat) : SfsM Unit := do
  let node ← getSin sin
  let din := node.din
  if h : index < sfsNdirect then
    if din.direct ⟨index, h⟩ ≠ 0 then
      sfsBlockFree (din.direct ⟨index, h⟩)
      let direct := Function.update din.direct ⟨index, h⟩ 0
      setSin sin { node with
        din := { din with direct := direct }, dirty := true }
  else
    let index := index - sfsNdirect
    if index < sfsBlkNentry ∧ din.indirect ≠ 0 then
      sfsBmapFreeSubNolock din.indirect index

/-- `sfs_bmap_load_nolock`. -/
def sfsBmapLoadNolock (sin index : Nat) : SfsM (Except Err Nat) := do
  let node ← getSin sin
  Call.assert (index ≤ node.din.blocks)
  let create := decide (index = node.din.blocks)
  match ← sfsBmapGetNolock sin index create with
  | .error e => return .error e
  | .ok ino =>
      let inuse ← sfsBlockInuse ino
      Call.assert (inuse = true)
      if create = true then
        let node ← getSin sin
        let blocks := node.din.blocks + 1
        setSin sin { node with din := { node.din with blocks := blocks } }
      return .ok ino

/-- `sfs_bmap_truncate_nolock`. -/
def sfsBmapTruncateNolock (sin : Nat) : SfsM Unit := do
  let node ← getSin sin
  Call.assert (node.din.blocks ≠ 0)
  sfsBmapFreeNolock sin (node.din.blocks - 1)
  let node ← getSin sin
  let blocks := node.din.blocks - 1
  setSin sin { node with
    din := { node.din with blocks := blocks }, dirty := true }

-- ==================================================== size of a file

/-- The loop of `sfs_truncfile` that adds `n` blocks after the first
`nblks`. -/
def growFile (sin : Nat) : (n nblks : Nat) → SfsM (Except Err Unit)
  | 0, _ => return .ok ()
  | n + 1, nblks => do
      match ← sfsBmapLoadNolock sin nblks with
      | .error e => return .error e
      | .ok _ => growFile sin n (nblks + 1)

/-- The loop of `sfs_truncfile` that removes `n` blocks. -/
def shrinkFile (sin : Nat) : (n : Nat) → SfsM Unit
  | 0 => return ()
  | n + 1 => do
      sfsBmapTruncateNolock sin
      shrinkFile sin n

/-- The two loops of `sfs_truncfile`. -/
def resizeFile (sin nblks tblks : Nat) : SfsM (Except Err Unit) := do
  if nblks < tblks then growFile sin (tblks - nblks) nblks
  else
    shrinkFile sin (nblks - tblks)
    return .ok ()

/-- `sfs_truncfile`. -/
def sfsTruncfile (sin : Nat) (len : Int) : SfsM (Except Err Unit) := do
  if len < 0 ∨ sfsMaxFileSize < len then return .error .inval
  else
    let len := len.toNat
    let tblks := roundupDiv len sfsBlksize
    let node ← getSin sin
    if node.din.size = len then
      Call.assert (tblks = node.din.blocks)
      return .ok ()
    else
      match ← resizeFile sin node.din.blocks tblks with
      | .error e => return .error e
      | .ok _ =>
          let node ← getSin sin
          Call.assert (node.din.blocks = tblks)
          setSin sin { node with
            din := { node.din with size := len }, dirty := true }
          return .ok ()

/-- `vop_truncate`: directories have no such operation. -/
def vopTruncate (sin : Nat) (len : Int) : SfsM (Except Err Unit) := do
  let node ← getSin sin
  Call.assert (node.din.type = sfsTypeFile)
  sfsTruncfile sin len

-- ======================================================== reclaiming

/-- `sfs_fsync`. -/
def sfsFsync (sin : Nat) : SfsM Unit := do
  let node ← getSin sin
  if node.dirty = true then
    setSin sin { node with dirty := false }
    sfsWbuf node.din.toBytes sizeofDiskInode sin 0

/-- `sfs_remove_links`. -/
def sfsRemoveLinks (sin : Nat) : SfsM Unit :=
  Call.modify fun fs => { fs with
    inodes := Function.update fs.inodes sin none }

/-- The last part of `sfs_reclaim`: the inode leaves memory, and without
links the disk too. -/
def reclaimInode (sin : Nat) : SfsM Unit := do
  let node ← getSin sin
  if node.dirty = true then sfsFsync sin
  sfsRemoveLinks sin
  if node.din.nlinks = 0 then
    sfsBlockFree sin
    if node.din.indirect ≠ 0 then sfsBlockFree node.din.indirect

/-- `sfs_reclaim`. -/
def sfsReclaim (sin : Nat) : SfsM (Except Err Unit) := do
  let node ← getSin sin
  Call.assert (0 < node.reclaimCount)
  let count := node.reclaimCount - 1
  setSin sin { node with reclaimCount := count }
  if count ≠ 0 ∨ node.refCount ≠ 0 then return .error .busy
  else if node.din.nlinks = 0 then
    match ← vopTruncate sin 0 with
    | .error e => return .error e
    | .ok _ =>
        reclaimInode sin
        return .ok ()
  else
    reclaimInode sin
    return .ok ()

/-- `inode_ref_dec`. -/
def inodeRefDec (sin : Nat) : SfsM Unit := do
  let node ← getSin sin
  Call.assert (0 < node.refCount)
  let refs := node.refCount - 1
  setSin sin { node with refCount := refs }
  if refs = 0 then
    let _ ← sfsReclaim sin

end Ucore.Sfs
