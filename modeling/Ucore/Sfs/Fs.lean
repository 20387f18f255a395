/-
kern/fs/sfs/sfs.h and kern/fs/sfs/sfs_io.c: the layout of an SFS volume and
access to its blocks.

A volume is mounted on a device whose transfers succeed, and its blocks have
32-bit addresses (`blkno * SFS_BLKSIZE` does not wrap). The hash list and
the inode list hold the same inodes, one for each inode number, and are one
map from inode numbers to the inodes in memory. The locks are not modelled:
calls run one at a time.
-/
import Ucore.Lib.Bytes
import Ucore.Lib.Call
import Ucore.Sfs.Bitmap

namespace Ucore.Sfs

-- ========================================================= constants

/-- `SFS_BLKSIZE`. -/
def sfsBlksize : Nat := 4096
/-- `SFS_NDIRECT`. -/
def sfsNdirect : Nat := 12
/-- `SFS_MAX_FILE_SIZE`. -/
def sfsMaxFileSize : Nat := 1024 * 1024 * 128
/-- `SFS_BLKN_ROOT`. -/
def sfsBlknRoot : Nat := 1
/-- `SFS_BLKN_FREEMAP`. -/
def sfsBlknFreemap : Nat := 2
/-- `SFS_BLKBITS`. -/
def sfsBlkbits : Nat := sfsBlksize * 8
/-- `SFS_BLK_NENTRY`. -/
def sfsBlkNentry : Nat := sfsBlksize / 4
/-- `SFS_TYPE_FILE`. -/
def sfsTypeFile : Nat := 1
/-- `SFS_TYPE_DIR`. -/
def sfsTypeDir : Nat := 2

/-- `ROUNDUP_DIV`. -/
def roundupDiv (a n : Nat) : Nat := (a + n - 1) / n

/-- The error codes of libs/error.h that SFS and the calls over it return. -/
inductive Err where
  | inval
  | noMem
  | noDev
  | naDev
  | busy
  | noEnt
  | isDir
  | notDir
  | maxOpen
  | fileExists
deriving DecidableEq

-- ==================================================== inodes on disk

/-- `struct sfs_disk_inode`. -/
structure DiskInode where
  size : Nat
  type : Nat
  nlinks : Nat
  blocks : Nat
  direct : Fin sfsNdirect → Nat
  indirect : Nat

/-- `sizeof(struct sfs_disk_inode)`. -/
def sizeofDiskInode : Nat := 64

/-- The inode in its bytes. -/
def DiskInode.ofBytes (buf : Nat → UInt8) : DiskInode where
  size := getWord buf 0 4
  type := getWord buf 4 2
  nlinks := getWord buf 6 2
  blocks := getWord buf 8 4
  direct k := getWord buf (12 + 4 * k) 4
  indirect := getWord buf 60 4

/-- The bytes of an inode. -/
def DiskInode.toBytes (din : DiskInode) (k : Nat) : UInt8 :=
  if k < 4 then wordByte din.size k
  else if k < 6 then wordByte din.type (k - 4)
  else if k < 8 then wordByte din.nlinks (k - 6)
  else if k < 12 then wordByte din.blocks (k - 8)
  else if h : k < 60 then
    wordByte (din.direct ⟨(k - 12) / 4, by unfold sfsNdirect; omega⟩)
      ((k - 12) % 4)
  else wordByte din.indirect (k - 60)

-- ================================================== inodes in memory

/-- `struct sfs_inode` with the counts of its `struct inode`. -/
structure SfsInode where
  din : DiskInode
  dirty : Bool
  reclaimCount : Int
  refCount : Int

/-- `SFS_MAGIC`. -/
def sfsMagic : Nat := 0x2f8dbe2a
/-- `SFS_MAX_INFO_LEN`. -/
def sfsMaxInfoLen : Nat := 31

/-- `struct sfs_super`. -/
structure SfsSuper where
  magic : Nat := sfsMagic
  blocks : Nat
  unusedBlocks : Nat
  info : Fin (sfsMaxInfoLen + 1) → UInt8 := fun _ => 0

/-- `struct sfs_fs`, with the contents of its device. -/
structure SfsFs where
  super : SfsSuper
  freemap : Bitmap
  superDirty : Bool
  disk : Nat → Nat → UInt8
  inodes : Nat → Option SfsInode

/-- `sfs_freemap_blocks`. -/
def sfsFreemapBlocks (super : SfsSuper) : Nat :=
  roundupDiv super.blocks sfsBlkbits

/-- `sfs_freemap_bits`. -/
def sfsFreemapBits (super : SfsSuper) : Nat :=
  sfsFreemapBlocks super * sfsBlkbits

/-- What runs on a volume. -/
abbrev SfsM := Call SfsFs

/-- What `sfs_rwblock_nolock` asserts when it is told to check. -/
def rwCheck (blkno : Nat) : SfsM Unit := do
  let fs ← Call.get
  Call.assert (blkno ≠ 0 ∧ blkno < fs.super.blocks)

/-- `sfs_rbuf`: the bytes from `offset` of a block. -/
def sfsRbuf (len blkno offset : Nat) : SfsM (Nat → UInt8) := do
  Call.assert (offset < sfsBlksize ∧ offset + len ≤ sfsBlksize)
  rwCheck blkno
  let fs ← Call.get
  return fun k => fs.disk blkno (offset + k)

/-- A block with `len` bytes of `buf` stored at `offset`. -/
def storeBytes (block buf : Nat → UInt8) (len offset k : Nat) : UInt8 :=
  if offset ≤ k ∧ k < offset + len then buf (k - offset) else block k

/-- `sfs_wbuf`. -/
def sfsWbuf (buf : Nat → UInt8) (len blkno offset : Nat) : SfsM Unit := do
  Call.assert (offset < sfsBlksize ∧ offset + len ≤ sfsBlksize)
  rwCheck blkno
  Call.modify fun fs => { fs with
    disk := Function.update fs.disk blkno
      (storeBytes (fs.disk blkno) buf len offset) }

/-- `sfs_clear_block` of one block. -/
def sfsClearBlock (blkno : Nat) : SfsM Unit := do
  rwCheck blkno
  Call.modify fun fs => { fs with
    disk := Function.update fs.disk blkno fun _ => 0 }

-- ============================================= the bytes of an inode

/-- The fields fit. -/
structure DiskInode.Fits (din : DiskInode) : Prop where
  size : din.size < 256 ^ 4
  type : din.type < 256 ^ 2
  nlinks : din.nlinks < 256 ^ 2
  blocks : din.blocks < 256 ^ 4
  direct : ∀ k, din.direct k < 256 ^ 4
  indirect : din.indirect < 256 ^ 4

theorem DiskInode.ofBytes_fits (buf : Nat → UInt8) : (ofBytes buf).Fits :=
  ⟨getWord_lt, getWord_lt, getWord_lt, getWord_lt, fun _ => getWord_lt,
    getWord_lt⟩

theorem DiskInode.ofBytes_congr {buf buf' : Nat → UInt8}
    (h : ∀ k, k < sizeofDiskInode → buf' k = buf k) :
    ofBytes buf' = ofBytes buf := by
  have hword : ∀ off n, off + n ≤ sizeofDiskInode →
      getWord buf' off n = getWord buf off n := fun off n hle =>
    getWord_congr fun k hk => h (off + k) (by omega)
  unfold sizeofDiskInode at hword
  unfold ofBytes
  rw [DiskInode.mk.injEq]
  refine ⟨hword 0 4 (by omega), hword 4 2 (by omega), hword 6 2 (by omega),
    hword 8 4 (by omega), funext fun k => hword _ 4 ?_, hword 60 4 (by omega)⟩
  have hk := k.isLt
  unfold sfsNdirect at hk
  omega

/-- An inode reads back from its bytes. -/
theorem DiskInode.ofBytes_toBytes {din : DiskInode} (h : din.Fits) :
    ofBytes din.toBytes = din := by
  obtain ⟨hsize, htype, hnlinks, hblocks, hdirect, hindirect⟩ := h
  cases din with
  | mk size type nlinks blocks direct indirect =>
      unfold ofBytes
      rw [DiskInode.mk.injEq]
      refine ⟨getWord_wordByte hsize fun k hk => ?_,
        getWord_wordByte htype fun k hk => ?_,
        getWord_wordByte hnlinks fun k hk => ?_,
        getWord_wordByte hblocks fun k hk => ?_,
        funext fun i => getWord_wordByte (hdirect i) fun k hk => ?_,
        getWord_wordByte hindirect fun k hk => ?_⟩
      · unfold toBytes
        rw [if_pos (by omega), Nat.zero_add]
      · unfold toBytes
        rw [if_neg (by omega), if_pos (by omega), Nat.add_sub_cancel_left]
      · unfold toBytes
        rw [if_neg (by omega), if_neg (by omega), if_pos (by omega),
          Nat.add_sub_cancel_left]
      · unfold toBytes
        rw [if_neg (by omega), if_neg (by omega), if_neg (by omega),
          if_pos (by omega), Nat.add_sub_cancel_left]
      · have hi := i.isLt
        unfold sfsNdirect at hi
        have hlt : 12 + 4 * i.val + k < 60 := by omega
        have hdiv : (12 + 4 * i.val + k - 12) / 4 = i.val := by omega
        have hmod : (12 + 4 * i.val + k - 12) % 4 = k := by omega
        unfold toBytes
        rw [if_neg (by omega), if_neg (by omega), if_neg (by omega),
          if_neg (by omega), dif_pos hlt]
        simp only [hdiv, hmod]
      · unfold toBytes
        rw [if_neg (by omega), if_neg (by omega), if_neg (by omega),
          if_neg (by omega), dif_neg (by omega), Nat.add_sub_cancel_left]

end Ucore.Sfs
