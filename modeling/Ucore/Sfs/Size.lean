/-
The size and the block count of a file.

`sfs_truncfile` changes the blocks of a file one at a time and sets its size
last; `sfs_io_nolock` sets the size alone. Here is what the two have to do
with each other, which blocks a file takes to grow, and what is left of a
call that stops for lack of them.

The bytes of a file, and what resizing it does to those past its size.

No byte moves in `sfs_truncfile`: a block that the file gets was cleared when
it was allocated, and a block that it keeps keeps its bytes, also those past
a new size inside it.
-/
import Ucore.Lib.Call
import Ucore.Lib.Run
import Ucore.Sfs.File
import Mathlib.Order.Interval.Finset.Nat

namespace Ucore.Sfs

-- ===================================================== the block map

/-- The most blocks an inode maps. -/
def maxBlocks : Nat := sfsNdirect + sfsBlkNentry

/-- The block with an index in a file, 0 if none. -/
def blockAt (fs : SfsFs) (i index : Nat) : Nat :=
  if h : index < sfsNdirect then target fs i (.direct ⟨index, h⟩)
  else if h : index - sfsNdirect < sfsBlkNentry then
    target fs i (.entry ⟨index - sfsNdirect, h⟩)
  else 0

/-- The blocks that a file takes to grow from `lo` to `hi` blocks: one for
each index that has none, and the indirect block. -/
def growthCost (fs : SfsFs) (i lo hi : Nat) : Nat :=
  ((Finset.Ico lo hi).filter fun k => blockAt fs i k = 0).card
    + if lo < hi ∧ sfsNdirect < hi ∧ (inodeOf fs i).indirect = 0 then 1 else 0

-- =================================================== size and blocks

/-- The file has the blocks for its size. -/
def SizeAgrees (din : DiskInode) : Prop :=
  din.blocks = roundupDiv din.size sfsBlksize

/-- The regular files of a volume have the blocks for their sizes. -/
def SizesAgree (v : Volume) : Prop :=
  ∀ i ∈ v.files, (inodeOf v.fs i).type = sfsTypeFile →
    SizeAgrees (inodeOf v.fs i)

/-- `n` blocks are no more than the file has or its map holds, or the free
blocks run out before the map is full. -/
def CanHold (fs : SfsFs) (i n : Nat) : Prop :=
  let blocks := (inodeOf fs i).blocks
  n ≤ blocks ∨ n ≤ maxBlocks ∨ blocks < maxBlocks
    ∧ fs.super.unusedBlocks < growthCost fs i blocks maxBlocks

/-- The lengths that `sfs_truncfile` can handle. -/
def Resizable (fs : SfsFs) (i len : Nat) : Prop :=
  if (inodeOf fs i).size = len then SizeAgrees (inodeOf fs i)
  else CanHold fs i (roundupDiv len sfsBlksize)

-- ================================================= growth that stops

/-- The file is as it was, and so are the free blocks. -/
structure Restored (fs fs' : SfsFs) (i : Nat) : Prop where
  size : (inodeOf fs' i).size = (inodeOf fs i).size
  blocks : (inodeOf fs' i).blocks = (inodeOf fs i).blocks
  map : ∀ pos, target fs' i pos = target fs i pos
  freemap : ∀ b, fs'.freemap.bit b = fs.freemap.bit b
  unused : fs'.super.unusedBlocks = fs.super.unusedBlocks

/-- There is no free block for the next index of the file. -/
def NoneToTake (fs : SfsFs) (i : Nat) : Prop :=
  let blocks := (inodeOf fs i).blocks
  fs.super.unusedBlocks < growthCost fs i blocks (blocks + 1)

/-- To grow the file to `len` bytes takes more blocks than are free, but it
gets the first of them. -/
def StopsHalfway (fs : SfsFs) (i : Nat) (len : Int) : Prop :=
  let blocks := (inodeOf fs i).blocks
  ¬ NoneToTake fs i ∧ blocks < roundupDiv len.toNat sfsBlksize
    ∧ fs.super.unusedBlocks
      < growthCost fs i blocks (roundupDiv len.toNat sfsBlksize)

/-- The panic of `sfs_bmap_get_nolock`: the file has grown until its map is
full, and is to grow more. -/
def Overruns (fs : SfsFs) (i : Nat) (len : Int) : Prop :=
  let blocks := (inodeOf fs i).blocks
  max blocks maxBlocks < roundupDiv len.toNat sfsBlksize
    ∧ ∃ fs', growFile i (maxBlocks - blocks) blocks fs = some (.ok (), fs')

/-- The call of `sfs_io_nolock` sets the size to `offset`. -/
def Stretches (fs : SfsFs) (i : Nat) (offset : Int) (alen : Nat)
    (write : Bool) : Prop :=
  write = true ∧ (inodeOf fs i).size < offset ∧ offset < sfsMaxFileSize
    ∧ offset < ioEndpos offset alen

/-- The calls after which a file has the blocks for its size, if it had them
before: growth does not stop halfway, and the size that `sfs_io_nolock` sets
takes no more blocks. -/
def FileOp.Spares (fs : SfsFs) : FileOp → Prop
  | .truncate sin len => ¬ StopsHalfway fs sin len
  | .tryseek sin pos =>
      pos < sfsMaxFileSize → (inodeOf fs sin).size < pos →
        ¬ StopsHalfway fs sin pos
  | .io sin offset alen write =>
      Stretches fs sin offset alen write →
        roundupDiv offset.toNat sfsBlksize
          = roundupDiv (inodeOf fs sin).size sfsBlksize
  | _ => True

/-- A call that returns and is such a one. -/
def SparingStep (v : Volume) (op : FileOp) (v' : Volume) : Prop :=
  FileStep v op v' ∧ op.Spares v.fs

/-- The byte at an offset of a file, in the block for it. -/
def fileByte (fs : SfsFs) (i o : Nat) : UInt8 :=
  fs.disk (blockAt fs i (o / sfsBlksize)) (o % sfsBlksize)

/-- The file has the size, the blocks and the bytes that it had. -/
structure SameFile (fs fs' : SfsFs) (i : Nat) : Prop where
  inode : inodeOf fs' i = inodeOf fs i
  block : ∀ k, blockAt fs' i k = blockAt fs i k
  byte : ∀ o, blockAt fs i (o / sfsBlksize) ≠ 0 →
    fileByte fs' i o = fileByte fs i o

/-- From offset `m` on the blocks of the file hold zeros. -/
def ZeroFrom (fs : SfsFs) (i m : Nat) : Prop :=
  ∀ o, m ≤ o → blockAt fs i (o / sfsBlksize) ≠ 0 → fileByte fs i o = 0

/-- The bytes that a new length cuts off are zeros, as far as they are in a
block that the file keeps. -/
def CutsZeros (fs : SfsFs) (i len : Nat) : Prop :=
  ∀ o, len ≤ o → o < (inodeOf fs i).size →
    o / sfsBlksize < roundupDiv len sfsBlksize →
    blockAt fs i (o / sfsBlksize) ≠ 0 → fileByte fs i o = 0

/-- A call of `sfs_truncfile` on an inode that returns. -/
inductive TruncStep : Volume → Nat × Int → Volume → Prop
  | call {v : Volume} {x : Nat × Int} {r : Except Err Unit} {fs' : SfsFs} :
      sfsTruncfile x.1 x.2 v.fs = some (r, fs') →
      TruncStep v x ⟨fs', v.files⟩

/-- After any calls from here, the bytes that the file has grown over are
zeros, in each block that it has. -/
def ExposesZeros (v : Volume) (i : Nat) : Prop :=
  ∀ ops v', Run TruncStep v ops v' → ∀ o, (inodeOf v.fs i).size ≤ o →
    o < (inodeOf v'.fs i).size → blockAt v'.fs i (o / sfsBlksize) ≠ 0 →
    fileByte v'.fs i o = 0

/-- Such a call that cuts zeros only, if it is one on file `i`. -/
def CleanStep (i : Nat) (v : Volume) (x : Nat × Int) (v' : Volume) : Prop :=
  TruncStep v x v' ∧ (x.1 = i → CutsZeros v.fs i x.2.toNat)

end Ucore.Sfs
