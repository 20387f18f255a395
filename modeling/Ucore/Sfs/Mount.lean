/-
kern/fs/sfs/sfs_fs.c, with the functions of sfs_io.c and bitmap.c it calls:
a volume is mounted from its device and written back to it.

`inode_list` is an argument of `sfs_sync`; it holds the inodes in memory, in
some order. `kmalloc` succeeds.
-/
import Ucore.Sfs.Inode

namespace Ucore.Sfs

-- =================================================== the super block

/-- `SFS_BLKN_SUPER`. -/
def sfsBlknSuper : Nat := 0

/-- The super block in its bytes. -/
def SfsSuper.ofBytes (buf : Nat → UInt8) : SfsSuper where
  magic := getWord buf 0 4
  blocks := getWord buf 4 4
  unusedBlocks := getWord buf 8 4
  info k := buf (12 + k)

/-- A block with the super block at its start and zeros after it. -/
def SfsSuper.toBytes (super : SfsSuper) (k : Nat) : UInt8 :=
  if k < 4 then wordByte super.magic k
  else if k < 8 then wordByte super.blocks (k - 4)
  else if k < 12 then wordByte super.unusedBlocks (k - 8)
  else if h : k < 44 then
    super.info ⟨k - 12, by unfold sfsMaxInfoLen; omega⟩
  else 0

-- ====================================================== the free map

/-- The bytes of the map, which `bitmap_getdata` returns. -/
def Bitmap.data (b : Bitmap) (k : Nat) : UInt8 :=
  wordByte (b.map (k / 4)).toNat (k % 4)

/-- The loop of `bitmap_create` over the `n` bits left over from `overbits`
on. -/
def markLeftover : (n overbits : Nat) → BitVec 32 → BitVec 32
  | 0, _, word => word
  | n + 1, overbits, word =>
      markLeftover n (overbits + 1) (word ^^^ bitMask overbits)

/-- `bitmap_create`: all bits are set, but those left over at the end. -/
def bitmapCreate (nbits : Nat) : Option Bitmap :=
  if nbits ≠ 0 then
    let nwords := roundupDiv nbits wordBits
    let map := fun ix => if ix < nwords then BitVec.allOnes 32 else 0
    if nbits ≠ nwords * wordBits then
      let ix := nwords - 1
      let overbits := nbits - ix * wordBits
      if nbits / wordBits = ix ∧ 0 < overbits ∧ overbits < wordBits then
        let word := markLeftover (wordBits - overbits) overbits (map ix)
        some { nbits := nbits, nwords := nwords,
               map := Function.update map ix word }
      else none
    else some { nbits := nbits, nwords := nwords, map := map }
  else none

/-- `sfs_init_freemap`: the words of the map are read from `nblks` blocks. -/
def sfsInitFreemap (freemap : Bitmap) (nblks : Nat)
    (disk : Nat → Nat → UInt8) : Option Bitmap :=
  if 4 * freemap.nwords = nblks * sfsBlksize then
    some { freemap with
      map := fun ix =>
        if ix < freemap.nwords then
          BitVec.ofNat 32 (getWord (disk (sfsBlknFreemap + 4 * ix / sfsBlksize))
            (4 * ix % sfsBlksize) 4)
        else freemap.map ix }
  else none

-- =========================================================== writing

/-- `sfs_sync_super`. -/
def sfsSyncSuper : SfsM Unit := do
  let fs ← Call.get
  Call.assert (sfsBlknSuper < fs.super.blocks)
  Call.modify fun fs => { fs with
    disk := Function.update fs.disk sfsBlknSuper fs.super.toBytes }

/-- `sfs_wblock` of the blocks `n` of the free map from `j` on. -/
def wblockFreemap : (n j : Nat) → SfsM Unit
  | 0, _ => return ()
  | n + 1, j => do
      rwCheck (sfsBlknFreemap + j)
      Call.modify fun fs => { fs with
        disk := Function.update fs.disk (sfsBlknFreemap + j)
          fun k => fs.freemap.data (j * sfsBlksize + k) }
      wblockFreemap n (j + 1)

/-- `sfs_sync_freemap`. -/
def sfsSyncFreemap : SfsM Unit := do
  let fs ← Call.get
  wblockFreemap (sfsFreemapBlocks fs.super) 0

/-- The loop of `sfs_sync`. -/
def fsyncAll : List Nat → SfsM Unit
  | [] => return ()
  | sin :: sins => do
      sfsFsync sin
      fsyncAll sins

/-- `sfs_sync`. -/
def sfsSync (inodeList : List Nat) : SfsM (Except Err Unit) := do
  fsyncAll inodeList
  let fs ← Call.get
  if fs.superDirty = true then
    Call.modify fun fs => { fs with superDirty := false }
    sfsSyncSuper
    sfsSyncFreemap
  return .ok ()

-- ========================================================== mounting

/-- What `sfs_do_mount` reads of `struct device`. -/
structure Device where
  dBlocks : Nat
  dBlocksize : Nat

/-- `sfs_do_mount`; `none` is a failed assertion. -/
def sfsDoMount (dev : Device) (disk : Nat → Nat → UInt8) :
    Option (Except Err SfsFs) :=
  if dev.dBlocksize ≠ sfsBlksize then some (.error .naDev)
  else
    let super := SfsSuper.ofBytes (disk sfsBlknSuper)
    if super.magic ≠ sfsMagic then some (.error .inval)
    else if dev.dBlocks < super.blocks then some (.error .inval)
    else
      let info := Function.update super.info (Fin.last sfsMaxInfoLen) 0
      match (bitmapCreate (sfsFreemapBits super)).bind fun freemap =>
        sfsInitFreemap freemap (sfsFreemapBlocks super) disk with
      | none => none
      | some freemap =>
          let unused := (List.range (sfsFreemapBits super)).countP fun i =>
            bitmapTest freemap i = some true
          if unused = super.unusedBlocks then
            some (.ok {
              super := { super with info := info }
              freemap := freemap
              superDirty := false
              disk := disk
              inodes := fun _ => none })
          else none

end Ucore.Sfs
