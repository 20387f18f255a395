/-
kern/fs/sfs/sfs_io.c and kern/fs/sfs/sfs_fs.c: the blocks of a volume on the
disk, and the mount that decides which numbers are blocks.

The offset of a block is a product of `uint32_t`; only then does it become an
`off_t`.
-/
import Ucore.Driver.Disk0
import Ucore.Sfs.Mount

namespace Ucore.Sfs

open Driver (Disk Transfer Iobuf iobufInit disk0Io uint32)

/-- `blkno * SFS_BLKSIZE`. -/
def blockOffset (blkno : Nat) : Nat := uint32 (blkno * sfsBlksize)

/-- `sfs_rwblock_nolock` on a disk: the device, `disk0_buffer` and `buf` after
it. -/
def sfsRwblockNolock (super : SfsSuper) (disk : Disk) (buffer buf : Nat → UInt8)
    (blkno : Nat) (write check : Bool) : Option (Except Err Unit × Transfer) :=
  if (blkno ≠ 0 ∨ check = false) ∧ blkno < super.blocks then
    disk0Io { disk := disk, buffer := buffer,
              iob := iobufInit buf sfsBlksize (blockOffset blkno) } write
  else none

/-- `sfs_init_read`: what is read into a buffer. -/
def sfsInitRead (disk : Disk) (blkno : Nat) :
    Option (Except Err (Nat → UInt8)) :=
  (disk0Io { disk := disk, buffer := fun _ => 0,
             iob := iobufInit (fun _ => 0) sfsBlksize (blockOffset blkno) }
    false).map fun r => r.1.map fun _ => r.2.iob.base

/-- The blocks as a mount reads them. -/
def blocksOf (disk : Disk) (blkno : Nat) : Nat → UInt8 :=
  match sfsInitRead disk blkno with
  | some (.ok buf) => buf
  | _ => fun _ => 0

/-- A mount of the disk succeeds. -/
structure Mounts (disk : Disk) (fs : SfsFs) : Prop where
  done : sfsDoMount { dBlocks := disk.dBlocks, dBlocksize := Driver.disk0Blksize }
    (blocksOf disk) = some (.ok fs)
  readSuper : ∃ buf, sfsInitRead disk sfsBlknSuper = some (.ok buf)
  readFreemap : ∀ j < sfsFreemapBlocks fs.super,
    ∃ buf, sfsInitRead disk (sfsBlknFreemap + j) = some (.ok buf)

/-- The bytes of the block are read, and no others. -/
def ReadsBlock (super : SfsSuper) (disk : Disk) (blkno : Nat) : Prop :=
  ∀ (buffer buf : Nat → UInt8) (check : Bool), (blkno ≠ 0 ∨ check = false) →
    ∃ t, sfsRwblockNolock super disk buffer buf blkno false check
        = some (.ok (), t)
      ∧ t.disk.data = disk.data
      ∧ ∀ k, t.iob.base k
        = if k < sfsBlksize then disk.data (sfsBlksize * blkno + k) else buf k

/-- The bytes of the block are written, and no others. -/
def WritesBlock (super : SfsSuper) (disk : Disk) (blkno : Nat) : Prop :=
  ∀ (buffer buf : Nat → UInt8) (check : Bool), (blkno ≠ 0 ∨ check = false) →
    ∃ t, sfsRwblockNolock super disk buffer buf blkno true check
        = some (.ok (), t)
      ∧ ∀ k, t.disk.data k
        = if sfsBlksize * blkno ≤ k ∧ k < sfsBlksize * blkno + sfsBlksize then
            buf (k - sfsBlksize * blkno)
          else disk.data k

/-- Every block of the volume is read and written in its place, and has a bit
in the free map. -/
structure Addresses (disk : Disk) (fs : SfsFs) : Prop where
  reads : ∀ blkno < fs.super.blocks, ReadsBlock fs.super disk blkno
  writes : ∀ blkno < fs.super.blocks, WritesBlock fs.super disk blkno
  bits : fs.super.blocks ≤ fs.freemap.nbits

end Ucore.Sfs
