/-
The kernel mounts what mksfs made: the free map that `close_sfs` computes has
the bits of the unused blocks, and the super block counts them.

What mksfs makes is consistent: every block that was given out has one owner, a
block is free in the free map if it has none, and the kernel mounts it.
-/
import Ucore.Mksfs.Proofs.Close
import Ucore.Sfs.Proofs.Sync
import Mathlib.Order.Interval.Finset.Nat

namespace Ucore.Mksfs

open Sfs

variable {s t u : Image} {held : Finset Nat} {disk : Nat → Nat → UInt8}
  {b i j k n x ninos nextIno : Nat} {data : Nat → BitVec 32} {dev : Device}

-- ========================================================== the bits

/-- Bit `x` of words. -/
def bitOf (data : Nat → BitVec 32) (x : Nat) : Bool :=
  (data (x / wordBits)).getLsbD (x % wordBits)

theorem bitOf_set (data : Nat → BitVec 32) (j x : Nat) :
    bitOf (Function.update data (j / wordBits)
      (data (j / wordBits) ||| bitMask (j % wordBits))) x
      = (bitOf data x || decide (x = j)) := by
  unfold bitOf
  by_cases hword : x / wordBits = j / wordBits
  · rw [hword, Function.update_self, BitVec.getLsbD_or, bitMask_eq,
      BitVec.getLsbD_twoPow]
    congr 1
    unfold wordBits at *
    rw [Bool.eq_iff_iff]
    simp only [Bool.and_eq_true, decide_eq_true_eq]
    omega
  · have hne : x ≠ j := fun heq => hword (heq ▸ rfl)
    rw [Function.update_of_ne hword, decide_eq_false hne, Bool.or_false]

theorem bitOf_setBits : ∀ {n j : Nat} {data : Nat → BitVec 32},
    bitOf (setBits data n j) x
      = (bitOf data x || decide (j ≤ x ∧ x < j + n)) := by
  intro n
  induction n with
  | zero =>
      intro j data
      rw [setBits, decide_eq_false (by omega), Bool.or_false]
  | succ n ih =>
      intro j data
      rw [setBits, ih, bitOf_set, Bool.or_assoc]
      congr 1
      rw [Bool.eq_iff_iff]
      simp only [Bool.or_eq_true, decide_eq_true_eq]
      omega

/-- The bits of a block of the free map. -/
theorem bitOf_freemapWords (hle : nextIno ≤ ninos) (hx : x < sfsBlkbits) :
    bitOf (freemapWords ninos nextIno i) x
      = decide (nextIno ≤ i + x ∧ i + x < ninos) := by
  have hzero : bitOf (fun _ => 0) x = false := BitVec.getLsbD_zero
  unfold freemapWords
  split
  case isTrue hlt =>
      dsimp only
      rw [bitOf_setBits, hzero, Bool.false_or]
      rw [Bool.eq_iff_iff, decide_eq_true_eq, decide_eq_true_eq]
      split
      case isTrue =>
          split
          case isTrue => omega
          case isFalse => omega
      case isFalse =>
          split
          case isTrue => omega
          case isFalse => omega
  case isFalse hge =>
      rw [hzero, eq_comm, decide_eq_false_iff_not]
      omega

-- ======================================================== the volume

/-- The words of the free map, block after block. -/
def mapWords (ninos nextIno ix : Nat) : BitVec 32 :=
  freemapWords ninos nextIno (ix / sfsBlkNentry * sfsBlkbits) (ix % sfsBlkNentry)

theorem bitOf_mapWords (hle : nextIno ≤ ninos) :
    bitOf (mapWords ninos nextIno) x = decide (nextIno ≤ x ∧ x < ninos) := by
  have hlt : x % sfsBlkbits < sfsBlkbits := Nat.mod_lt _ (by decide)
  have hblock : x / wordBits / sfsBlkNentry = x / sfsBlkbits :=
    Nat.div_div_eq_div_mul ..
  have hword : x / wordBits % sfsBlkNentry = x % sfsBlkbits / wordBits := by
    unfold wordBits sfsBlkNentry sfsBlkbits sfsBlksize
    omega
  have hbit : x % wordBits = x % sfsBlkbits % wordBits := by
    unfold wordBits sfsBlkbits sfsBlksize
    omega
  have hsum : x / sfsBlkbits * sfsBlkbits + x % sfsBlkbits = x :=
    Nat.div_add_mod' ..
  have hbits := bitOf_freemapWords (i := x / sfsBlkbits * sfsBlkbits) hle hlt
  rw [hsum] at hbits
  rw [← hbits]
  unfold bitOf mapWords
  rw [hblock, hword, hbit]

/-- The file system that is on disk, before it is mounted. -/
def Image.volume (s : Image) (disk : Nat → Nat → UInt8) : SfsFs where
  super := s.super
  freemap :=
    { nbits := sfsFreemapBits s.super
      nwords := sfsFreemapBlocks s.super * sfsBlkNentry
      map := mapWords s.ninos s.nextIno }
  superDirty := false
  disk := disk
  inodes _ := none

/-- The file system when it is mounted. -/
def Image.mounted (s : Image) (disk : Nat → Nat → UInt8) : SfsFs :=
  { s.volume disk with
    super := { s.super with
      info := Function.update s.super.info (Fin.last sfsMaxInfoLen) 0 }
    freemap := (s.volume disk).freemap.read }

theorem Sound.super_blocks (h : Sound held s) : s.super.blocks = s.ninos := by
  rw [h.super]

theorem Sound.reserved (h : Sound held s) :
    reservedBlocks s.super = firstIno s.ninos := by
  unfold reservedBlocks sfsFreemapBlocks
  rw [h.super_blocks]
  unfold firstIno roundupDiv
  rfl

theorem Sound.bit_volume (h : Sound held s) :
    (s.volume disk).freemap.bit b
      = decide (s.nextIno ≤ b ∧ b < s.ninos) :=
  bitOf_mapWords h.placed.next_le

theorem Sound.freeBits_volume (h : Sound held s) (disk : Nat → Nat → UInt8) :
    freeBits (s.volume disk) = Finset.Ico s.nextIno s.ninos := by
  ext b
  have hle := blocks_le_freemapBits s.super
  rw [h.super_blocks] at hle
  rw [mem_freeBits, Finset.mem_Ico, h.bit_volume, decide_eq_true_eq]
  constructor
  · exact fun hb => hb.2
  · exact fun hb => ⟨Nat.lt_of_lt_of_le hb.2 hle, hb⟩

/-- The free map covers the volume, and the super block counts it. -/
theorem Sound.mapOk_volume (h : Sound held s) (disk : Nat → Nat → UInt8) :
    MapOk (s.volume disk) := by
  refine ⟨rfl, ?_, ?_, fun {b} hb => ?_, ?_⟩
  · show sfsFreemapBlocks s.super * sfsBlkNentry * wordBits
      = sfsFreemapBlocks s.super * sfsBlkbits
    rw [Nat.mul_assoc]
    rfl
  · show s.super.blocks < 2 ^ 32
    rw [h.super_blocks]
    exact Nat.lt_of_le_of_lt h.ninos_le (by decide)
  · have hfirst := h.placed.first_le
    rw [h.freeBits_volume, Finset.mem_Ico] at hb
    show reservedBlocks s.super ≤ b ∧ b < s.super.blocks
    rw [h.reserved, h.super_blocks]
    omega
  · show s.super.unusedBlocks = _
    rw [h.freeBits_volume, Nat.card_Ico, h.placed.unused]

theorem Sound.bit_mounted (h : Sound held s) (hb : b < sfsFreemapBits s.super) :
    (s.mounted disk).freemap.bit b = decide (s.nextIno ≤ b ∧ b < s.ninos) := by
  have hmapOk := h.mapOk_volume disk
  show (s.volume disk).freemap.read.bit b = _
  rw [Bitmap.bit_read (by rw [hmapOk.nwords]; exact hb), h.bit_volume]

theorem Sound.freeBits_mounted (h : Sound held s) :
    freeBits (s.mounted disk) = Finset.Ico s.nextIno s.ninos := by
  rw [← h.freeBits_volume disk]
  ext b
  rw [mem_freeBits, mem_freeBits]
  refine and_congr_right fun hlt => ?_
  rw [h.bit_mounted hlt, h.bit_volume]

theorem Sound.mapOk_mounted (h : Sound held s) (disk : Nat → Nat → UInt8) :
    MapOk (s.mounted disk) := by
  have hmapOk := h.mapOk_volume disk
  refine ⟨hmapOk.nwords, hmapOk.nwords, hmapOk.blocks_lt, fun {b} hb => ?_, ?_⟩
  · rw [h.freeBits_mounted, ← h.freeBits_volume disk] at hb
    exact hmapOk.free_range hb
  · rw [h.freeBits_mounted, ← h.freeBits_volume disk]
    exact hmapOk.unused_eq

/-- The super block and the free map are on disk. -/
theorem Sound.superOnDisk (h : Sound held s) (hclosed : Closed disk s) :
    SuperOnDisk (s.volume disk) := by
  have hmapOk := h.mapOk_volume disk
  have hsize : 4 * (sfsFreemapBlocks s.super * sfsBlkNentry)
      = sfsFreemapBlocks s.super * sfsBlksize := by
    rw [Nat.mul_left_comm]
    rfl
  refine ⟨?_, ?_⟩
  · show SfsSuper.ofBytes (disk sfsBlknSuper) = s.super
    have hmagic : s.super.magic < 256 ^ 4 := by
      rw [h.super]
      exact (by decide : sfsMagic < 256 ^ 4)
    rw [hclosed.super]
    exact SfsSuper.ofBytes_toBytes hmagic hmapOk.blocks_lt hmapOk.unused_lt
  · unfold sfsInitFreemap
    rw [if_pos (show 4 * (s.volume disk).freemap.nwords
      = sfsFreemapBlocks (s.volume disk).super * sfsBlksize from hsize),
      Option.some.injEq, Bitmap.mk.injEq]
    refine ⟨rfl, rfl, funext fun ix => ?_⟩
    split
    case isFalse => rfl
    case isTrue hix =>
        have hdiv : 4 * ix / sfsBlksize = ix / sfsBlkNentry := by
          unfold sfsBlkNentry sfsBlksize
          omega
        have hmod : 4 * ix % sfsBlksize = 4 * (ix % sfsBlkNentry) := by
          unfold sfsBlkNentry sfsBlksize
          omega
        have hblock : sfsBlknFreemap + ix / sfsBlkNentry < firstIno s.ninos := by
          have hlt : ix / sfsBlkNentry < sfsFreemapBlocks s.super :=
            Nat.div_lt_of_lt_mul (by rwa [Nat.mul_comm])
          rw [← h.reserved]
          unfold reservedBlocks
          omega
        have hword := hclosed.freemap _ hblock
        show BitVec.ofNat 32 (getWord (disk (sfsBlknFreemap + 4 * ix / sfsBlksize))
          (4 * ix % sfsBlksize) 4) = mapWords s.ninos s.nextIno ix
        rw [hdiv, hmod, hword]
        apply getWord_data ⟨0, 0, fun x => freemapWords s.ninos s.nextIno
          (ix / sfsBlkNentry * sfsBlkbits) x⟩
        intro k hk
        have hlt : ix % sfsBlkNentry < sfsBlkNentry := Nat.mod_lt _ (by decide)
        unfold padded
        rw [if_pos]
        · rfl
        · unfold sfsBlkNentry at hlt
          unfold sfsBlksize at *
          omega

/-- `sfs_do_mount` of a device with this super block and this free map. -/
theorem mounts_ended {fs : SfsFs} (h : SuperOnDisk fs)
    (hmap : MapOk fs) (hpos : 0 < fs.freemap.nwords)
    (hblocksize : dev.dBlocksize = sfsBlksize)
    (hmagic : fs.super.magic = sfsMagic) (hblocks : fs.super.blocks ≤ dev.dBlocks) :
    sfsDoMount dev fs.disk = some (.ok
      { fs with
        super := { fs.super with
          info := Function.update fs.super.info (Fin.last sfsMaxInfoLen) 0 }
        freemap := fs.freemap.read
        superDirty := false
        inodes := fun _ => none }) := by
  unfold sfsDoMount
  rw [if_neg (not_not_intro hblocksize)]
  dsimp only
  rw [h.super, if_neg (not_not_intro hmagic), if_neg (Nat.not_lt.2 hblocks),
    h.read hmap.nwords hpos]
  dsimp only
  rw [if_pos ((countP_free hmap.nwords rfl).trans hmap.unused_eq.symm)]

end Ucore.Mksfs

namespace Ucore.Mksfs

open Sfs

variable {s s₀ t u : Image} {held : Finset Nat} {disk : Nat → Nat → UInt8}
  {info : Fin (sfsMaxInfoLen + 1) → UInt8} {home : Listing}
  {b i j k n size : Nat}

-- ========================================================= the start

/-- The image before it has an inode. -/
def blankImage (ninos : Nat) (disk : Nat → Nat → UInt8)
    (info : Fin (sfsMaxInfoLen + 1) → UInt8) : Image where
  super := { blocks := ninos, unusedBlocks := ninos - firstIno ninos
             info := info }
  ninos := ninos
  nextIno := firstIno ninos
  nodes _ := newInode 0 0
  inodes _ := []
  caches _ _ := 0
  blocks _ := []
  disk := disk
  entryName _ := 0
  stored _ := []
  written _ := []

theorem blank_sound {ninos : Nat} (hfirst : firstIno ninos ≤ ninos)
    (hmax : ninos ≤ sfsMaxNblks) :
    Sound (insert sfsBlknRoot ∅) (blankImage ninos disk info) := by
  have hcached : ∀ i, ¬ (blankImage ninos disk info).Cached i := by
    rintro i ⟨k, hk⟩
    cases hk
  have hbuf : ∀ c, ¬ (blankImage ninos disk info).Buffered c := by
    rintro c ⟨k, hk⟩
    cases hk
  have hrefers : ∀ x b, ¬ (blankImage ninos disk info).view.Refers
      (blankImage ninos disk info).Cached x b :=
    fun x b hx => hcached _ hx.1
  refine ⟨⟨⟨⟨?_, ?_, ?_⟩, ?_⟩, Nat.le_refl _, hfirst, rfl⟩, ?_, ?_, hmax, rfl, ?_,
    ?_, fun _ => ⟨rfl, rfl, rfl⟩, ?_⟩
  · intro x y b hx
    exact absurd hx (hrefers x b)
  · intro x b hx
    exact absurd hx (hrefers x b)
  · intro b
    rw [LawfulSingleton.insert_empty_eq, Finset.mem_singleton]
    constructor
    · rintro (⟨hlo, hhi⟩ | hroot)
      · exact absurd hhi (Nat.not_lt.2 hlo)
      · exact Or.inr hroot
    · rintro (⟨x, hx⟩ | hroot)
      · exact absurd hx (hrefers x b)
      · exact Or.inr hroot
  · intro c
    constructor
    · exact fun hc => absurd hc (hbuf c)
    · rintro ⟨x, -, hx⟩
      exact absurd hx (hrefers x c)
  · exact fun hi => absurd hi (hcached _)
  · exact fun hi => absurd hi (hcached _)
  · intro i k hi
    cases hi
  · intro c k hc
    cases hc
  · exact fun hi => absurd hi (hcached _)

/-- What `create_sfs` makes. -/
structure Created (size : Nat) (s : Image) : Prop where
  sound : Sound ∅ s
  cached : ∀ i, s.Cached i ↔ i = sfsBlknRoot
  root : s.nodes sfsBlknRoot = newInode 0 sfsTypeDir
  written : ∀ i, s.written i = []
  stored : ∀ i, s.stored i = []
  ninos_le : s.ninos ≤ size / sfsBlksize

theorem createSfs_spec (hrun : createSfs size disk info = some s) :
    Created size s := by
  have hroot : sfsBlknRoot ≠ 0 := by decide
  unfold createSfs at hrun
  dsimp only at hrun
  split at hrun
  case isTrue => cases hrun
  case isFalse hlt =>
      have hs : s = (blankImage (min (size / sfsBlksize % 2 ^ 32) sfsMaxNblks)
          disk info).withInode sfsBlknRoot 0 sfsTypeDir := by
        unfold allocCacheInode at hrun
        rw [if_pos hroot] at hrun
        exact (Option.some.inj hrun).symm
      have hblank : Sound (insert sfsBlknRoot ∅) (blankImage
          (min (size / sfsBlksize % 2 ^ 32) sfsMaxNblks) disk info) :=
        blank_sound (Nat.le_of_lt (Nat.not_le.1 hlt)) (Nat.min_le_right _ _)
      refine ⟨?_, fun i => ?_, ?_, fun i => ?_, fun i => ?_, ?_⟩
      · rw [hs]
        exact hblank.withInode (Finset.notMem_empty _) (by decide)
      · rw [hs, cached_withInode]
        refine or_iff_right ?_
        rintro ⟨k, hk⟩
        cases hk
      · rw [hs]
        exact withInode_node
      · rw [hs]
        rfl
      · rw [hs]
        rfl
      · rw [hs]
        exact Nat.le_trans (Nat.min_le_left _ _) (Nat.mod_le _ _)

-- ========================================================= the image

/-- How an image is made: the root directory is read, and all is written. -/
structure Made (size : Nat) (home : Listing) (s₀ s t : Image) : Prop where
  created : Created size s₀
  run : openDir (readEntries home) sfsBlknRoot sfsBlknRoot s₀ = some ((), s)
  sound : Sound ∅ s
  evolves : Evolves sfsBlknRoot s₀ s
  closed : Closed t.disk s
  rest : t = { s with disk := t.disk }
  other : ∀ b, ¬ s.Flushed b → t.disk b = s.disk b

theorem createImg_run (hrun : createImg size disk info home = some t) :
    ∃ s₀ s, Made size home s₀ s t := by
  unfold createImg at hrun
  obtain ⟨s₀, hcreate, hrun⟩ := Option.bind_eq_some_iff.1 hrun
  obtain ⟨⟨u, t'⟩, hrun, ht'⟩ := Option.map_eq_some_iff.1 hrun
  obtain ⟨_, s, hopen, hclose⟩ := Call.bind_eq_some.1 hrun
  have hcreated := createSfs_spec hcreate
  have hroot := (hcreated.cached sfsBlknRoot).2 rfl
  obtain ⟨hsound, s₁, s₂, hdot, -, hdotdot, -, -, hloop⟩ :=
    openDir_spec (readEntries_spec home) hcreated.sound hroot hroot hopen
  obtain ⟨hrest, hclosed, hother⟩ := closeSfs_spec hsound hclose
  have ht : t' = t := ht'
  rw [ht] at hrest hclosed hother
  exact ⟨s₀, s, hcreated, hopen, hsound,
    (hdot.evolves.trans hdotdot.evolves).trans hloop, hclosed, hrest, hother⟩

namespace Made

variable (h : Made size home s₀ s t)

include h

theorem cached : t.Cached = s.Cached := by
  rw [h.rest]
  rfl

theorem refers (x : Nat × Place) (b : Nat) :
    (diskView t.disk).Refers t.Cached x b ↔ s.view.Refers s.Cached x b := by
  unfold View.Refers
  rw [h.cached]
  constructor
  · rintro ⟨hi, heq, hne⟩
    rw [h.sound.target_disk h.closed hi] at heq
    exact ⟨hi, heq, hne⟩
  · rintro ⟨hi, heq, hne⟩
    rw [← h.sound.target_disk h.closed hi] at heq
    exact ⟨hi, heq, hne⟩

/-- The file system that the kernel has when it has mounted the image. -/
theorem mounts : sfsDoMount { dBlocks := size / sfsBlksize
                              dBlocksize := sfsBlksize } t.disk
    = some (.ok (s.mounted t.disk)) := by
  have hpos : 0 < (s.volume t.disk).freemap.nwords := by
    have hle := blocks_le_freemapBits s.super
    have hfirst := h.sound.placed.first_le
    have hnext := h.sound.placed.next_le
    have hroot := root_lt_first s.ninos
    rw [h.sound.super_blocks] at hle
    unfold sfsFreemapBits at hle
    apply Nat.mul_pos
    · apply Nat.pos_of_ne_zero
      intro hzero
      rw [hzero, Nat.zero_mul] at hle
      omega
    · decide
  refine mounts_ended (h.sound.superOnDisk h.closed) (h.sound.mapOk_volume t.disk)
    hpos rfl ?_ ?_
  · show s.super.magic = sfsMagic
    rw [h.sound.super]
  · show s.super.blocks ≤ size / sfsBlksize
    rw [h.sound.super_blocks, h.evolves.ninos]
    exact h.created.ninos_le

end Made

/-- Every block that was given out has one owner on disk. The kernel mounts the
image, with a free map that has the bits of the blocks without an owner. -/
theorem image_consistent (hrun : createImg size disk info home = some t) :
    (∀ b, firstIno t.ninos ≤ b → b < t.nextIno →
      ∃! x, (diskView t.disk).Refers t.Cached x b)
    ∧ ∃ fs, sfsDoMount { dBlocks := size / sfsBlksize
                         dBlocksize := sfsBlksize } t.disk = some (.ok fs)
      ∧ fs.super.blocks = t.ninos
      ∧ (∀ b, bitmapTest fs.freemap b = some true ↔ b < fs.super.blocks
        ∧ firstIno t.ninos ≤ b
        ∧ ∀ x, ¬ (diskView t.disk).Refers t.Cached x b)
      ∧ fs.super.unusedBlocks = (freeBits fs).card := by
  obtain ⟨s₀, s, hmade⟩ := createImg_run hrun
  have hsound := hmade.sound
  have hninos : t.ninos = s.ninos := by rw [hmade.rest]
  have hnext : t.nextIno = s.nextIno := by rw [hmade.rest]
  have hexact := hsound.placed.owned.exact.congr hmade.refers fun _ => Iff.rfl
  have hroot := root_lt_first s.ninos
  rw [hninos, hnext]
  refine ⟨fun b hlo hhi => hexact.unique_iff.1 (Or.inl ⟨hlo, hhi⟩), _,
    hmade.mounts, hsound.super_blocks, fun b => ?_, ?_⟩
  · have hle := blocks_le_freemapBits s.super
    rw [hsound.super_blocks] at hle
    show bitmapTest (s.mounted t.disk).freemap b = some true
      ↔ b < s.super.blocks ∧ _
    have hnbits : (s.mounted t.disk).freemap.nbits = sfsFreemapBits s.super :=
      (hsound.mapOk_mounted t.disk).nbits
    rw [bitmapTest_eq_some, hnbits, hsound.super_blocks]
    constructor
    · rintro ⟨hlt, hbit⟩
      rw [hsound.bit_mounted hlt, decide_eq_true_eq] at hbit
      have hfirst := hsound.placed.first_le
      refine ⟨hbit.2, by omega, fun x hx => ?_⟩
      have hused := hexact.used_iff.2 (Or.inl ⟨x, hx⟩)
      omega
    · rintro ⟨hlt, hlo, hnone⟩
      have hlt' : b < sfsFreemapBits s.super := Nat.lt_of_lt_of_le hlt hle
      refine ⟨hlt', ?_⟩
      rw [hsound.bit_mounted hlt', decide_eq_true_eq]
      refine ⟨Nat.not_lt.1 fun hhi => ?_, hlt⟩
      rcases hexact.used_iff.1 (Or.inl ⟨hlo, hhi⟩) with ⟨x, hx⟩ | hin
      · exact hnone x hx
      · cases hin
  · exact (hsound.mapOk_mounted t.disk).unused_eq

/-- A directory with a file of three bytes, on sixteen blocks. -/
def smallTree : Listing :=
  .dir [0x61] 7 (.file [0x62] 8 [1, 2, 3] .done) .done

theorem smallTree_made : ∃ t, createImg (16 * sfsBlksize) (fun _ _ => 0)
    (fun _ => 0) smallTree = some t :=
  Option.isSome_iff_exists.1 (by decide +kernel)

theorem image_consistent_small : ∃ t, createImg (16 * sfsBlksize) (fun _ _ => 0)
      (fun _ => 0) smallTree = some t
    ∧ ∃ fs, sfsDoMount { dBlocks := 16, dBlocksize := sfsBlksize } t.disk
      = some (.ok fs) ∧ fs.super.unusedBlocks = (freeBits fs).card := by
  obtain ⟨t, hrun⟩ := smallTree_made
  obtain ⟨-, fs, hmount, -, -, hunused⟩ := image_consistent hrun
  exact ⟨t, hrun, fs, hmount, hunused⟩

end Ucore.Mksfs
