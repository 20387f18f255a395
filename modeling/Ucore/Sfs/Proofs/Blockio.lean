/-
Where the blocks of a volume are on the disk. The offset of a block is taken
modulo 2 ^ 32, which is that of the block modulo 2 ^ 20; so a block over
2 ^ 20 is in the place of another one. Nothing else wraps: a disk has fewer
than 2 ^ 29 blocks.
-/
import Ucore.Sfs.Blockio
import Ucore.Sfs.Proofs.Agree
import Ucore.Sfs.Proofs.Bitmap

namespace Ucore.Sfs

open Driver

variable {disk : Disk} {fs : SfsFs} {buffer buf : Nat → UInt8} {b blkno : Nat}

-- ======================================================== the driver

theorem dBlocks_lt (disk : Disk) : disk.dBlocks < 2 ^ 29 := by
  have hlt := disk.size_lt
  unfold Disk.dBlocks disk0BlkNsect disk0Blksize sectsize
  omega

/-- All sectors of a block are on the disk. -/
theorem ramdiskNsecs_block (hb : b < disk.dBlocks) :
    ramdiskNsecs disk (8 * b) 8 = 8 := by
  have hlt := disk.size_lt
  unfold Disk.dBlocks disk0BlkNsect disk0Blksize sectsize at hb
  unfold ramdiskNsecs
  omega

/-- Before the transfer of a block. -/
def atBlock (disk : Disk) (buffer buf : Nat → UInt8) (b : Nat) : Transfer where
  disk := disk
  buffer := buffer
  iob := iobufInit buf sfsBlksize (sfsBlksize * b : Nat)

/-- The transfer of one block that `disk0_io` makes. -/
theorem disk0Io_block (hb : b < disk.dBlocks) (hlow : b < 2 ^ 20)
    (write : Bool) :
    disk0Io (atBlock disk buffer buf b) write
      = (disk0IoLoop write 1 b sfsBlksize (atBlock disk buffer buf b)).map
          fun t => (.ok (), t) := by
  have hblocks := dBlocks_lt disk
  have hblkno : ((((sfsBlksize * b : Nat) : Int).tdiv disk0Blksize) % 2 ^ 32).toNat
      = b := by
    unfold sfsBlksize disk0Blksize
    rw [Int.tdiv_eq_ediv_of_nonneg (by omega)]
    omega
  have haligned : ¬ (((sfsBlksize * b : Nat) : Int) % disk0Blksize ≠ 0
      ∨ sfsBlksize % disk0Blksize ≠ 0) := by
    unfold sfsBlksize disk0Blksize
    omega
  have hin : ¬ (atBlock disk buffer buf b).disk.dBlocks
      < uint32 (b + uint32 (sfsBlksize / disk0Blksize)) := by
    show ¬ disk.dBlocks < _
    unfold uint32 sfsBlksize disk0Blksize
    omega
  have hone : uint32 (sfsBlksize / disk0Blksize) ≠ 0 := by decide
  have hoffset : (atBlock disk buffer buf b).iob.offset
      = ((sfsBlksize * b : Nat) : Int) := rfl
  have hresid : (atBlock disk buffer buf b).iob.resid = sfsBlksize := rfl
  unfold disk0Io
  dsimp only
  rw [hoffset, hresid, hblkno, if_neg haligned, if_neg hin, if_neg hone,
    show sfsBlksize / disk0Blksize = 1 from rfl]

/-- The sectors of a block. -/
theorem sectors_block (hlow : b < 2 ^ 20) :
    uint32 (b * disk0BlkNsect) = 8 * b
      ∧ uint32 (1 * disk0BlkNsect) = 8
      ∧ 8 ≤ maxNsecs ∧ 8 * b < maxDiskNsecs ∧ 8 * b + 8 ≤ maxDiskNsecs := by
  unfold uint32 disk0BlkNsect disk0Blksize sectsize maxNsecs maxDiskNsecs
  omega

/-- The bytes of a block are read. -/
theorem disk0Io_read (hb : b < disk.dBlocks) (hlow : b < 2 ^ 20) :
    ∃ t, disk0Io (atBlock disk buffer buf b) false = some (.ok (), t)
      ∧ t.disk = disk
      ∧ ∀ k, t.iob.base k
        = if k < sfsBlksize then disk.data (sfsBlksize * b + k) else buf k := by
  obtain ⟨hsectno, hnsecs, hmax, hlt, hle⟩ := sectors_block hlow
  rw [disk0Io_block hb hlow]
  have hread : disk0ReadBlksNolock (atBlock disk buffer buf b).disk
      (atBlock disk buffer buf b).buffer b 1
      = some (memcpy buffer 0 disk.data (8 * b * sectsize) (8 * sectsize)) := by
    show disk0ReadBlksNolock disk buffer b 1 = _
    unfold disk0ReadBlksNolock ideReadSecs
    rw [hsectno, hnsecs, if_pos ⟨hmax, hlt, hle⟩, ramdiskNsecs_block hb]
  unfold disk0IoLoop
  rw [if_pos (by decide), if_neg (by decide)]
  rw [if_pos (show sfsBlksize < disk0Bufsize by decide)]
  dsimp only
  rw [show uint32 (sfsBlksize / disk0Blksize) = 1 from rfl, hread]
  rw [Option.bind_eq_bind, Option.bind_some]
  have hmoved : ∀ data, iobufMoveIn (atBlock disk buffer buf b).iob data
      sfsBlksize = (sfsBlksize, iobufSkip
        { (atBlock disk buffer buf b).iob with
          base := memcpy buf 0 data 0 sfsBlksize } sfsBlksize) :=
    fun _ => rfl
  have hwhole : sfsBlksize % disk0Blksize = 0 := by decide
  rw [hmoved, if_pos ⟨rfl, hwhole⟩]
  refine ⟨_, rfl, rfl, fun k => ?_⟩
  show memcpy buf 0 (memcpy buffer 0 disk.data (8 * b * sectsize)
    (8 * sectsize)) 0 sfsBlksize k = _
  unfold memcpy sectsize sfsBlksize
  by_cases hk : k < 4096
  · have hin : 0 ≤ k ∧ k < 0 + 4096 := by omega
    have hin' : 0 ≤ 0 + (k - 0) ∧ 0 + (k - 0) < 0 + 8 * 512 := by omega
    rw [if_pos hin, if_pos hin', if_pos hk]
    congr 1
    omega
  · have hout : ¬ (0 ≤ k ∧ k < 0 + 4096) := by omega
    rw [if_neg hout, if_neg hk]

/-- The bytes of a block are written. -/
theorem disk0Io_write (hb : b < disk.dBlocks) (hlow : b < 2 ^ 20) :
    ∃ t, disk0Io (atBlock disk buffer buf b) true = some (.ok (), t)
      ∧ ∀ k, t.disk.data k
        = if sfsBlksize * b ≤ k ∧ k < sfsBlksize * b + sfsBlksize then
            buf (k - sfsBlksize * b)
          else disk.data k := by
  obtain ⟨hsectno, hnsecs, hmax, hlt, hle⟩ := sectors_block hlow
  rw [disk0Io_block hb hlow]
  have hwrite : ∀ src,
      disk0WriteBlksNolock (atBlock disk buffer buf b).disk src b 1
        = some { disk with
          data := memcpy disk.data (8 * b * sectsize) src 0 (8 * sectsize) } := by
    intro src
    show disk0WriteBlksNolock disk src b 1 = _
    unfold disk0WriteBlksNolock ideWriteSecs
    rw [hsectno, hnsecs, if_pos ⟨hmax, hlt, hle⟩, ramdiskNsecs_block hb]
  unfold disk0IoLoop
  rw [if_pos (by decide), if_pos rfl]
  have hmoved : iobufMoveOut (atBlock disk buffer buf b).iob
      (atBlock disk buffer buf b).buffer disk0Bufsize
      = (4096, iobufSkip (iobufInit buf sfsBlksize (sfsBlksize * b : Nat)) 4096,
        memcpy buffer 0 buf 0 4096) := rfl
  rw [hmoved]
  dsimp only
  rw [if_pos (by decide), show uint32 (4096 / disk0Blksize) = 1 from rfl, hwrite]
  refine ⟨_, rfl, fun k => ?_⟩
  show memcpy disk.data (8 * b * sectsize) (memcpy buffer 0 buf 0 4096) 0
    (8 * sectsize) k = _
  unfold memcpy sectsize sfsBlksize
  by_cases hk : 4096 * b ≤ k ∧ k < 4096 * b + 4096
  · have hin : 8 * b * 512 ≤ k ∧ k < 8 * b * 512 + 8 * 512 := by omega
    have hin' : 0 ≤ 0 + (k - 8 * b * 512)
        ∧ 0 + (k - 8 * b * 512) < 0 + 4096 := by omega
    rw [if_pos hin, if_pos hin', if_pos hk]
    congr 1
    omega
  · have hout : ¬ (8 * b * 512 ≤ k ∧ k < 8 * b * 512 + 8 * 512) := by omega
    rw [if_neg hout, if_neg hk]

-- ======================================================== the volume

/-- A block is transferred from the place of its number modulo 2 ^ 20. -/
theorem sfsRwblockNolock_eq {super : SfsSuper} {write check : Bool}
    (hblkno : blkno < super.blocks) (hcheck : blkno ≠ 0 ∨ check = false) :
    sfsRwblockNolock super disk buffer buf blkno write check
      = disk0Io (atBlock disk buffer buf (blkno % 2 ^ 20)) write := by
  have hoffset : blockOffset blkno = sfsBlksize * (blkno % 2 ^ 20) := by
    unfold blockOffset uint32 sfsBlksize
    omega
  unfold sfsRwblockNolock
  rw [if_pos ⟨hcheck, hblkno⟩, hoffset]
  rfl

/-- What a mount makes sure of. -/
theorem Mounts.blocks_le (h : Mounts disk fs) :
    fs.super.blocks ≤ disk.dBlocks := by
  obtain ⟨-, -, hle, -⟩ := sfsDoMount_run h.done
  exact hle

theorem bitmapCreate_nbits {nbits : Nat} {m : Bitmap}
    (h : bitmapCreate nbits = some m) : m.nbits = nbits := by
  by_cases hpos : nbits ≠ 0
  · obtain ⟨m', hcreate, hholds⟩ := bitmapCreate_holds hpos
    rw [hcreate] at h
    cases h
    exact hholds.nbits_eq
  · unfold bitmapCreate at h
    rw [if_neg hpos] at h
    cases h

theorem sfsInitFreemap_nbits {m m' : Bitmap} {nblks : Nat}
    {view : Nat → Nat → UInt8} (h : sfsInitFreemap m nblks view = some m') :
    m'.nbits = m.nbits := by
  unfold sfsInitFreemap at h
  split at h
  case isTrue =>
      cases h
      rfl
  case isFalse => cases h

theorem sfsFreemapBits_info (super : SfsSuper)
    (info : Fin (sfsMaxInfoLen + 1) → UInt8) :
    sfsFreemapBits { super with info := info } = sfsFreemapBits super := rfl

/-- The free map of a volume has the bits that were asked for. -/
theorem sfsDoMount_nbits {dev : Device} {view : Nat → Nat → UInt8}
    (h : sfsDoMount dev view = some (.ok fs)) :
    fs.freemap.nbits = sfsFreemapBits fs.super := by
  obtain ⟨super, freemap, m, -, -, -, -, hcreate, hinit, rfl⟩ :=
    sfsDoMount_cases h
  rw [sfsFreemapBits_info, sfsInitFreemap_nbits hinit]
  exact bitmapCreate_nbits hcreate

theorem Mounts.bits (h : Mounts disk fs) :
    fs.super.blocks ≤ fs.freemap.nbits := by
  rw [sfsDoMount_nbits h.done]
  exact blocks_le_freemapBits fs.super

/-- Block 2 ^ 20 is written over block 0. -/
theorem Mounts.overlap (h : Mounts disk fs) (hmany : 2 ^ 20 < fs.super.blocks) :
    ¬ Addresses disk fs := by
  intro haddr
  have hle := h.blocks_le
  have hzero : 0 < disk.dBlocks := by omega
  obtain ⟨t, hwrite, hdata⟩ := haddr.writes (2 ^ 20) hmany (fun _ => 0)
    (fun _ => disk.data 0 + 1) false (.inr rfl)
  obtain ⟨t', hwrite', hdata'⟩ := @disk0Io_write disk (fun _ => 0)
    (fun _ => disk.data 0 + 1) 0 hzero (by decide)
  rw [sfsRwblockNolock_eq hmany (.inr rfl), Nat.mod_self, hwrite'] at hwrite
  cases hwrite
  have hkept := hdata 0
  have hgone := hdata' 0
  rw [if_neg (by unfold sfsBlksize; omega)] at hkept
  rw [if_pos (by unfold sfsBlksize; omega), hkept] at hgone
  have hone : (1 : UInt8) = 0 := by
    apply (UInt8.add_right_inj (disk.data 0)).1
    rw [UInt8.add_zero]
    exact hgone.symm
  exact absurd hone (by decide)

/-- Up to 2 ^ 20 blocks have numbers that do not wrap. -/
theorem Mounts.addresses (h : Mounts disk fs)
    (hfew : fs.super.blocks ≤ 2 ^ 20) : Addresses disk fs := by
  have hle := h.blocks_le
  constructor
  · intro blkno hblkno buffer buf check hcheck
    have hmod : blkno % 2 ^ 20 = blkno := Nat.mod_eq_of_lt (by omega)
    obtain ⟨t, hread, hdisk, hbase⟩ := @disk0Io_read disk buffer buf blkno
      (by omega) (by omega)
    refine ⟨t, ?_, by rw [hdisk], hbase⟩
    rw [sfsRwblockNolock_eq hblkno hcheck, hmod]
    exact hread
  · intro blkno hblkno buffer buf check hcheck
    have hmod : blkno % 2 ^ 20 = blkno := Nat.mod_eq_of_lt (by omega)
    obtain ⟨t, hwrite, hdata⟩ := @disk0Io_write disk buffer buf blkno
      (by omega) (by omega)
    refine ⟨t, ?_, hdata⟩
    rw [sfsRwblockNolock_eq hblkno hcheck, hmod]
    exact hwrite
  · exact h.bits

-- ========================================================== examples

/-- A super block that says every block is in use. -/
def fullSuper (blocks : Nat) : SfsSuper := { blocks := blocks, unusedBlocks := 0 }

/-- A disk of `size` sectors with this super block; all else on it is 0. -/
def fullDisk (blocks size : Nat) (hsize : size < 2 ^ 32) : Disk where
  size := size
  size_lt := hsize
  data := (fullSuper blocks).toBytes

def fullFs (blocks size : Nat) (hsize : size < 2 ^ 32) : SfsFs where
  super := fullSuper blocks
  freemap :=
    { nbits := sfsFreemapBits (fullSuper blocks)
      nwords := sfsFreemapBlocks (fullSuper blocks) * 1024
      map := fun _ => 0 }
  superDirty := false
  disk := blocksOf (fullDisk blocks size hsize)
  inodes _ := none

/-- What a mount reads. -/
theorem sfsInitRead_block (hb : b < disk.dBlocks) (hlow : b < 2 ^ 20) :
    sfsInitRead disk b = some (.ok fun k =>
      if k < sfsBlksize then disk.data (sfsBlksize * b + k) else 0) := by
  have hoffset : blockOffset b = sfsBlksize * b := by
    unfold blockOffset uint32 sfsBlksize
    omega
  obtain ⟨t, hread, -, hbase⟩ := @disk0Io_read disk (fun _ => 0) (fun _ => 0) b
    hb hlow
  have hio : sfsInitRead disk b
      = (disk0Io (atBlock disk (fun _ => 0) (fun _ => 0) b) false).map
        fun r => r.1.map fun _ => r.2.iob.base := by
    unfold sfsInitRead
    rw [hoffset]
    rfl
  rw [hio, hread, Option.map_some, ← funext hbase]
  rfl

theorem blocksOf_block (hb : b < disk.dBlocks) (hlow : b < 2 ^ 20) :
    blocksOf disk b = fun k =>
      if k < sfsBlksize then disk.data (sfsBlksize * b + k) else 0 := by
  unfold blocksOf
  rw [sfsInitRead_block hb hlow]

section Full
variable {blocks size : Nat} {hsize : size < 2 ^ 32}

theorem fullFs_freeBits : freeBits (fullFs blocks size hsize) = ∅ := by
  ext b
  rw [mem_freeBits]
  have hbit : (fullFs blocks size hsize).freemap.bit b = false :=
    BitVec.getLsbD_zero
  rw [hbit]
  simp

theorem fullFs_map (hblocks : blocks < 2 ^ 32) :
    MapOk (fullFs blocks size hsize) := by
  refine ⟨rfl, ?_, hblocks, fun hb => ?_, ?_⟩
  · show sfsFreemapBlocks (fullSuper blocks) * 1024 * wordBits = _
    rw [Nat.mul_assoc]
    rfl
  · rw [fullFs_freeBits] at hb
    exact absurd hb (Finset.notMem_empty _)
  · rw [fullFs_freeBits]
    rfl

theorem SfsSuper.toBytes_end (super : SfsSuper) {k : Nat} (hk : 44 ≤ k) :
    super.toBytes k = 0 := by
  unfold SfsSuper.toBytes
  rw [if_neg (by omega), if_neg (by omega), if_neg (by omega),
    dif_neg (by omega)]

/-- The super block is followed by zeros. -/
theorem fullDisk_blocks (hb : b < size / 8) (hlow : b < 2 ^ 20) :
    blocksOf (fullDisk blocks size hsize) b
      = if b = 0 then (fullSuper blocks).toBytes else fun _ => 0 := by
  rw [@blocksOf_block (fullDisk blocks size hsize) b hb hlow]
  have hdata : (fullDisk blocks size hsize).data
      = (fullSuper blocks).toBytes := rfl
  rw [hdata]
  funext k
  unfold sfsBlksize
  by_cases hzero : b = 0
  · rw [if_pos hzero, hzero, Nat.mul_zero, Nat.zero_add]
    split
    case isTrue => rfl
    case isFalse hk => exact (SfsSuper.toBytes_end _ (by omega)).symm
  · rw [if_neg hzero, SfsSuper.toBytes_end _ (by omega), ite_self]

theorem fullDisk_mounts (hpos : 0 < blocks) (hfit : blocks ≤ size / 8)
    (hmap : sfsBlknFreemap + sfsFreemapBlocks (fullSuper blocks) ≤ size / 8)
    (hlow : sfsBlknFreemap + sfsFreemapBlocks (fullSuper blocks) ≤ 2 ^ 20) :
    Mounts (fullDisk blocks size hsize) (fullFs blocks size hsize) := by
  have hdBlocks : (fullDisk blocks size hsize).dBlocks = size / 8 := rfl
  have hsome : 0 < sfsFreemapBlocks (fullSuper blocks) := by
    show 0 < (blocks + sfsBlkbits - 1) / sfsBlkbits
    unfold sfsBlkbits sfsBlksize
    omega
  have hmapOk : MapOk (fullFs blocks size hsize) := fullFs_map (by omega)
  have honDisk : SuperOnDisk (fullFs blocks size hsize) := by
    refine @superOnDisk_written (fullFs blocks size hsize)
      (blocksOf (fullDisk blocks size hsize)) hmapOk rfl ?_ ?_
    · rw [sfsBlknSuper, fullDisk_blocks (by omega) (by omega), if_pos rfl]
      rfl
    · intro m hm k
      have hm' : m < sfsFreemapBlocks (fullSuper blocks) := hm
      have hne : sfsBlknFreemap + m ≠ 0 := by
        unfold sfsBlknFreemap
        omega
      rw [fullDisk_blocks (by omega) (by omega), if_neg hne]
      show 0 = wordByte 0 ((m * sfsBlksize + k) % 4)
      unfold wordByte getByte
      rw [Nat.zero_div]
      rfl
  have hmountable : Mountable
      { dBlocks := (fullDisk blocks size hsize).dBlocks,
        dBlocksize := Driver.disk0Blksize } (fullFs blocks size hsize).super :=
    ⟨rfl, rfl, hfit, rfl⟩
  have hmount := honDisk.mounts hmapOk (Nat.mul_pos hsome (by decide)) hmountable
  have hread : (fullFs blocks size hsize).freemap.read
      = (fullFs blocks size hsize).freemap := by
    unfold Bitmap.read fullFs
    rw [Bitmap.mk.injEq]
    refine ⟨Nat.mul_assoc _ _ _, rfl, funext fun ix => ?_⟩
    exact ite_self _
  rw [hread] at hmount
  constructor
  · exact hmount
  · exact ⟨_, sfsInitRead_block (b := 0) (by omega) (by decide)⟩
  · intro j hj
    have hj' : j < sfsFreemapBlocks (fullSuper blocks) := hj
    exact ⟨_, sfsInitRead_block (by omega) (by omega)⟩

end Full

-- ===================================================== the addresses

/-- Every block is addressed in its place exactly if there are at most 2 ^ 20
of them. -/
theorem addresses_iff (h : Mounts disk fs) :
    Addresses disk fs ↔ fs.super.blocks ≤ 2 ^ 20 := by
  constructor
  · intro haddr
    by_contra hmany
    exact h.overlap (Nat.lt_of_not_le hmany) haddr
  · intro hfew
    exact h.addresses hfew

/-- A volume of four blocks on a disk of eight. -/
theorem addresses_iff_four :
    Addresses (fullDisk 4 64 (by decide)) (fullFs 4 64 (by decide)) := by
  have hmounts : Mounts (fullDisk 4 64 (by decide)) (fullFs 4 64 (by decide)) :=
    fullDisk_mounts (by decide) (by decide) (by decide) (by decide)
  exact (addresses_iff hmounts).2 (by decide)

/-- A volume of a block more than 2 ^ 20 mounts, on a disk of its size. -/
theorem addresses_over :
    Mounts (fullDisk 0x100001 0x800008 (by decide))
        (fullFs 0x100001 0x800008 (by decide))
      ∧ ¬ Addresses (fullDisk 0x100001 0x800008 (by decide))
        (fullFs 0x100001 0x800008 (by decide)) := by
  have hmounts : Mounts (fullDisk 0x100001 0x800008 (by decide))
      (fullFs 0x100001 0x800008 (by decide)) :=
    fullDisk_mounts (by decide) (by decide) (by decide) (by decide)
  exact ⟨hmounts, hmounts.overlap (by decide)⟩

end Ucore.Sfs
