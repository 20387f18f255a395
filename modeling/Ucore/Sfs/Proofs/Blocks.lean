/-
The accounting invariant of an SFS volume, and what allocating and freeing
a block does to it.

Between its allocation and the store that makes an inode refer to it, and
between the store that drops a reference and its release, a block is in
hand (`Inv held`). A block in hand is neither an inode nor an indirect
block, so writing it changes what no inode refers to.
-/
import Ucore.Lib.Exact
import Ucore.Sfs.Account

namespace Ucore.Sfs

variable {fs fs' : SfsFs} {files : Finset Nat} {held : Finset Nat}
  {i b ino : Nat} {pos : Pos} {node : SfsInode}

-- ===================================================== the invariant

/-- Blocks in use, outside the super block and the free map. -/
def Used (fs : SfsFs) (b : Nat) : Prop :=
  b < fs.super.blocks ∧ fs.freemap.bit b = false
    ∧ (reservedBlocks fs.super ≤ b ∨ b = sfsBlknRoot)

/-- Two inodes map the same blocks and are of one type. -/
structure SameMap (a b : DiskInode) : Prop where
  direct : a.direct = b.direct
  indirect : a.indirect = b.indirect
  type : a.type = b.type

/-- The free map covers the volume, frees no reserved block, and the super
block counts it. -/
structure MapOk (fs : SfsFs) : Prop where
  nbits : fs.freemap.nbits = sfsFreemapBits fs.super
  nwords : fs.freemap.nwords * wordBits = sfsFreemapBits fs.super
  blocks_lt : fs.super.blocks < 2 ^ 32
  free_range : ∀ {b}, b ∈ freeBits fs →
    reservedBlocks fs.super ≤ b ∧ b < fs.super.blocks
  unused_eq : fs.super.unusedBlocks = (freeBits fs).card

/-- Every block in use is in hand or referenced once, and the inodes in
memory that are not dirty map what the disk does. -/
structure Inv (held : Finset Nat) (v : Volume) : Prop where
  exact : Exact (Refers v) held (Used v.fs)
  map : MapOk v.fs
  files_pos : ∀ {i}, i ∈ v.files → i ≠ 0
  root : sfsBlknRoot ∈ v.files
  root_dir : (inodeOf v.fs sfsBlknRoot).type = sfsTypeDir
  loaded : ∀ {i node}, v.fs.inodes i = some node →
    i ∈ v.files ∧ node.din.Fits ∧ (node.dirty = false →
      SameMap node.din (DiskInode.ofBytes (v.fs.disk i)))

/-- From `fs` to `fs'` neither the block of an inode of `files` nor one of the
super block or the free map was written, and a change of these in memory is
marked. -/
structure Quiet (files : Finset Nat) (fs fs' : SfsFs) : Prop where
  disk : ∀ {b}, b ∈ files ∨ b < reservedBlocks fs.super ∧ b ≠ sfsBlknRoot →
    fs'.disk b = fs.disk b
  super : fs'.super
    = { fs.super with unusedBlocks := fs'.super.unusedBlocks }
  marked : fs'.superDirty = true ∨ fs'.superDirty = fs.superDirty
    ∧ fs'.super = fs.super ∧ fs'.freemap = fs.freemap

theorem SameMap.refl (a : DiskInode) : SameMap a a := ⟨rfl, rfl, rfl⟩

theorem SameMap.of_eq {a b : DiskInode} (h : a = b) : SameMap a b :=
  h ▸ SameMap.refl a

theorem SameMap.symm {a b : DiskInode} (h : SameMap a b) : SameMap b a :=
  ⟨h.direct.symm, h.indirect.symm, h.type.symm⟩

-- ============================================ what calls leave alone

theorem Quiet.refl (files : Finset Nat) (fs : SfsFs) : Quiet files fs fs :=
  ⟨fun _ => rfl, rfl, Or.inr ⟨rfl, rfl, rfl⟩⟩

theorem Quiet.reserved (h : Quiet files fs fs') :
    reservedBlocks fs'.super = reservedBlocks fs.super := by
  rw [h.super]
  rfl

theorem Quiet.trans {fs₁ : SfsFs} (h : Quiet files fs fs₁)
    (h' : Quiet files fs₁ fs') : Quiet files fs fs' := by
  refine ⟨fun {b} hb => ?_, ?_, ?_⟩
  · have hb' : b ∈ files
        ∨ b < reservedBlocks fs₁.super ∧ b ≠ sfsBlknRoot := by
      rw [h.reserved]
      exact hb
    rw [h'.disk hb', h.disk hb]
  · rw [h'.super, h.super]
  · rcases h'.marked with hdirty | ⟨hdirty, hsuper, hmap⟩
    · exact Or.inl hdirty
    · rw [hdirty, hsuper, hmap]
      exact h.marked

theorem Quiet.mono {files' : Finset Nat} (h : Quiet files fs fs')
    (hsub : files' ⊆ files) : Quiet files' fs fs' :=
  ⟨fun hb => h.disk (hb.imp_left fun hin => hsub hin), h.super, h.marked⟩

/-- Where only inodes in memory change. -/
theorem Quiet.of_memory (hdisk : fs'.disk = fs.disk)
    (hsuper : fs'.super = fs.super) (hmap : fs'.freemap = fs.freemap)
    (hdirty : fs'.superDirty = fs.superDirty) : Quiet files fs fs' := by
  refine ⟨fun _ => by rw [hdisk], ?_, Or.inr ⟨hdirty, hsuper, hmap⟩⟩
  rw [hsuper]

-- ============================================ what targets depend on

theorem inodeOf_loaded (h : fs.inodes i = some node) :
    inodeOf fs i = node.din := by
  rw [inodeOf, h]

theorem inodeOf_unloaded (h : fs.inodes i = none) :
    inodeOf fs i = DiskInode.ofBytes (fs.disk i) := by
  rw [inodeOf, h]

theorem target_entry (fs : SfsFs) (i : Nat) (j : Fin sfsBlkNentry) :
    target fs i (.entry j) = if (inodeOf fs i).indirect = 0 then 0
      else entryAt fs.disk (inodeOf fs i).indirect j := rfl

/-- The targets of an inode are those of its map, read off the disk. -/
theorem target_congr (hmap : SameMap (inodeOf fs' i) (inodeOf fs i))
    (hdisk : (inodeOf fs i).indirect ≠ 0 → ∀ j : Fin sfsBlkNentry,
      entryAt fs'.disk (inodeOf fs i).indirect j
        = entryAt fs.disk (inodeOf fs i).indirect j) (pos : Pos) :
    target fs' i pos = target fs i pos := by
  cases pos with
  | self => rfl
  | direct k => exact congrFun hmap.direct k
  | indirect => exact hmap.indirect
  | entry j =>
      rw [target_entry, target_entry, hmap.indirect]
      split
      case isTrue => rfl
      case isFalse hne => exact hdisk hne j

theorem inodeOf_congr (hinodes : fs'.inodes i = fs.inodes i)
    (hdisk : fs.inodes i = none → fs'.disk i = fs.disk i) :
    inodeOf fs' i = inodeOf fs i := by
  unfold inodeOf
  rw [hinodes]
  cases hi : fs.inodes i with
  | none => dsimp only; rw [hdisk hi]
  | some node => rfl

/-- Only the inode and the disk matter. -/
theorem target_of_eq (hinodes : fs'.inodes = fs.inodes)
    (hdisk : fs'.disk = fs.disk) (i : Nat) (pos : Pos) :
    target fs' i pos = target fs i pos := by
  have hi : inodeOf fs' i = inodeOf fs i :=
    inodeOf_congr (congrFun hinodes i) fun _ => congrFun hdisk i
  refine target_congr (SameMap.of_eq hi) (fun _ j => ?_) pos
  rw [hdisk]

theorem refers_congr
    (h : ∀ i ∈ files, ∀ pos, target fs' i pos = target fs i pos)
    (x : Nat × Pos) (b : Nat) :
    Refers ⟨fs', files⟩ x b ↔ Refers ⟨fs, files⟩ x b := by
  unfold Refers
  constructor
  · rintro ⟨hin, ht, hb⟩
    exact ⟨hin, (h x.1 hin x.2).symm.trans ht, hb⟩
  · rintro ⟨hin, ht, hb⟩
    exact ⟨hin, (h x.1 hin x.2).trans ht, hb⟩

theorem Inv.refers_self (h : Inv held ⟨fs, files⟩) (hi : i ∈ files) :
    Refers ⟨fs, files⟩ (i, .self) i :=
  ⟨hi, rfl, h.files_pos hi⟩

theorem Inv.refers_indirect (hi : i ∈ files)
    (hne : (inodeOf fs i).indirect ≠ 0) :
    Refers ⟨fs, files⟩ (i, .indirect) (inodeOf fs i).indirect :=
  ⟨hi, rfl, hne⟩

/-- A block in hand is no inode. -/
theorem Inv.ne_inode (h : Inv held ⟨fs, files⟩) (hb : b ∈ held)
    (hi : i ∈ files) : i ≠ b := by
  rintro rfl
  exact h.exact.apart (h.refers_self hi) hb

/-- A block in hand is no indirect block. -/
theorem Inv.ne_indirect (h : Inv held ⟨fs, files⟩) (hb : b ∈ held)
    (hi : i ∈ files) (hne : (inodeOf fs i).indirect ≠ 0) :
    (inodeOf fs i).indirect ≠ b := by
  rintro rfl
  exact h.exact.apart (Inv.refers_indirect hi hne) hb

/-- Writing a block in hand changes no target. -/
theorem Inv.target_write (h : Inv held ⟨fs, files⟩) (hb : b ∈ held)
    (hinodes : fs'.inodes = fs.inodes)
    (hdisk : ∀ d, d ≠ b → fs'.disk d = fs.disk d) (hi : i ∈ files)
    (pos : Pos) : target fs' i pos = target fs i pos := by
  have hsame : inodeOf fs' i = inodeOf fs i :=
    inodeOf_congr (congrFun hinodes i) fun _ => hdisk i (h.ne_inode hb hi)
  refine target_congr (SameMap.of_eq hsame) (fun hne j => ?_) pos
  rw [entryAt, entryAt, hdisk _ (h.ne_indirect hb hi hne)]

theorem MapOk.congr (h : MapOk fs) (hsuper : fs'.super = fs.super)
    (hfreemap : fs'.freemap = fs.freemap) : MapOk fs' := by
  have hfree : freeBits fs' = freeBits fs := by
    rw [freeBits, freeBits, hsuper, hfreemap]
  refine ⟨?_, ?_, ?_, ?_, ?_⟩
  · rw [hfreemap, hsuper]
    exact h.nbits
  · rw [hfreemap, hsuper]
    exact h.nwords
  · rw [hsuper]
    exact h.blocks_lt
  · rw [hfree, hsuper]
    exact h.free_range
  · rw [hfree, hsuper]
    exact h.unused_eq

theorem used_congr (hsuper : fs'.super = fs.super)
    (hfreemap : fs'.freemap = fs.freemap) (b : Nat) :
    Used fs' b ↔ Used fs b := by
  rw [Used, Used, hsuper, hfreemap]

/-- Writing a block in hand keeps the invariant. -/
theorem Inv.write (h : Inv held ⟨fs, files⟩) (hb : b ∈ held)
    (hsuper : fs'.super = fs.super) (hfreemap : fs'.freemap = fs.freemap)
    (hinodes : fs'.inodes = fs.inodes)
    (hdisk : ∀ d, d ≠ b → fs'.disk d = fs.disk d) :
    Inv held ⟨fs', files⟩ := by
  have hsame : ∀ {i}, i ∈ files → inodeOf fs' i = inodeOf fs i := fun hi =>
    inodeOf_congr (congrFun hinodes _) fun _ => hdisk _ (h.ne_inode hb hi)
  refine ⟨h.exact.congr (refers_congr fun i hi =>
    h.target_write hb hinodes hdisk hi) (used_congr hsuper hfreemap),
    h.map.congr hsuper hfreemap, h.files_pos, h.root, ?_, ?_⟩
  · dsimp only
    rw [hsame h.root]
    exact h.root_dir
  · intro i node hi
    dsimp only at hi
    rw [hinodes] at hi
    obtain ⟨hin, hfits, hclean⟩ := h.loaded hi
    refine ⟨hin, hfits, fun hd => ?_⟩
    dsimp only
    rw [hdisk i (h.ne_inode hb hin)]
    exact hclean hd

-- ============================================ allocating and freeing

/-- The file system after a bit of its map changed. -/
def withFreemap (fs : SfsFs) (freemap : Bitmap) (unused : Nat) : SfsFs :=
  { fs with
    freemap := freemap
    super := { fs.super with unusedBlocks := unused }
    superDirty := true }

theorem mem_freeBits : b ∈ freeBits fs
    ↔ b < sfsFreemapBits fs.super ∧ fs.freemap.bit b = true := by
  rw [freeBits, Finset.mem_filter, Finset.mem_range]

/-- The free map covers the volume. -/
theorem blocks_le_freemapBits (super : SfsSuper) :
    super.blocks ≤ sfsFreemapBits super := by
  unfold sfsFreemapBits sfsFreemapBlocks roundupDiv
  have hpos : 0 < sfsBlkbits := by decide
  have hdiv := Nat.lt_div_mul_add hpos (a := super.blocks + sfsBlkbits - 1)
  omega

/-- The root inode is never in hand. -/
theorem Inv.ne_root (h : Inv held ⟨fs, files⟩) (hb : b ∈ held) :
    b ≠ sfsBlknRoot :=
  (h.ne_inode hb h.root).symm

/-- A free block that is taken is in hand. -/
theorem Inv.take {freemap : Bitmap} (h : Inv held ⟨fs, files⟩)
    (halloc : bitmapAlloc fs.freemap = some (some (ino, freemap))) :
    Inv (insert ino held)
        ⟨withFreemap fs freemap (fs.super.unusedBlocks - 1), files⟩
      ∧ ino ∉ held ∧ reservedBlocks fs.super ≤ ino
      ∧ ino < fs.super.blocks := by
  rcases bitmapAlloc_spec halloc with ⟨hnone, -⟩ | ⟨ino', fm, hsome, hspec⟩
  · cases hnone
  · cases hsome
    obtain ⟨hnbits, hnwords, hlt, hbit, hbits⟩ := hspec
    rw [h.map.nwords] at hlt
    have hin : ino ∈ freeBits fs := mem_freeBits.mpr ⟨hlt, hbit⟩
    obtain ⟨hlo, hhi⟩ := h.map.free_range hin
    have hunused : ¬ Used fs ino := by
      rintro ⟨-, hused, -⟩
      rw [hbit] at hused
      cases hused
    have hnot : ino ∉ held := fun hheld =>
      hunused (h.exact.used_iff.mpr (Or.inr hheld))
    let fs₁ := withFreemap fs freemap (fs.super.unusedBlocks - 1)
    have hused : ∀ c, Used fs₁ c ↔ Used fs c ∨ c = ino := by
      intro c
      show c < fs.super.blocks ∧ freemap.bit c = false
        ∧ (reservedBlocks fs.super ≤ c ∨ c = sfsBlknRoot) ↔ _
      rw [hbits]
      by_cases hc : c = ino
      · subst hc
        simp [hhi, hlo]
      · simp [hc, Used]
    have hfree : freeBits fs₁ = (freeBits fs).erase ino := by
      ext c
      rw [Finset.mem_erase, mem_freeBits, mem_freeBits]
      show c < sfsFreemapBits fs.super ∧ freemap.bit c = true ↔ _
      rw [hbits]
      simp only [Bool.and_eq_true, Bool.not_eq_true', decide_eq_false_iff_not]
      tauto
    have htarget : ∀ i pos, target fs₁ i pos = target fs i pos :=
      target_of_eq rfl rfl
    refine ⟨⟨(h.exact.congr (refers_congr fun i _ => htarget i)
      fun _ => Iff.rfl).take hunused hused, ⟨?_, ?_, h.map.blocks_lt, ?_, ?_⟩, h.files_pos, h.root,
        h.root_dir, h.loaded⟩, hnot, hlo, hhi⟩
    · exact hnbits.trans h.map.nbits
    · show freemap.nwords * wordBits = sfsFreemapBits fs.super
      rw [hnwords]
      exact h.map.nwords
    · intro c hc
      exact h.map.free_range (Finset.mem_of_mem_erase (hfree ▸ hc))
    · show fs.super.unusedBlocks - 1 = (freeBits fs₁).card
      rw [hfree, Finset.card_erase_of_mem hin, h.map.unused_eq]

/-- A block in hand that is put back is free. -/
theorem Inv.give {freemap : Bitmap} (h : Inv (insert b held) ⟨fs, files⟩)
    (hb : b ∉ held) (hfree : bitmapFree fs.freemap b = some freemap) :
    Inv held ⟨withFreemap fs freemap (fs.super.unusedBlocks + 1), files⟩ := by
  obtain ⟨hnbits, hnwords, hlt, hbit, hbits⟩ := bitmapFree_spec hfree
  rw [h.map.nbits] at hlt
  have hmem : b ∈ insert b held := Finset.mem_insert_self b held
  obtain ⟨hhi, -, hlo⟩ := h.exact.used_iff.mpr (Or.inr hmem)
  have hlo' : reservedBlocks fs.super ≤ b := hlo.resolve_right (h.ne_root hmem)
  let fs₁ := withFreemap fs freemap (fs.super.unusedBlocks + 1)
  have hused : ∀ c, Used fs₁ c ↔ Used fs c ∧ c ≠ b := by
    intro c
    show c < fs.super.blocks ∧ freemap.bit c = false
      ∧ (reservedBlocks fs.super ≤ c ∨ c = sfsBlknRoot) ↔ _
    rw [hbits]
    by_cases hc : c = b
    · simp [hc]
    · simp [hc, Used]
  have hfreeBits : freeBits fs₁ = insert b (freeBits fs) := by
    ext c
    rw [Finset.mem_insert, mem_freeBits, mem_freeBits]
    show c < sfsFreemapBits fs.super ∧ freemap.bit c = true ↔ _
    rw [hbits]
    simp only [Bool.or_eq_true, decide_eq_true_eq]
    constructor
    · rintro ⟨hc, rfl | hc'⟩
      · exact Or.inl rfl
      · exact Or.inr ⟨hc, hc'⟩
    · rintro (rfl | ⟨hc, hc'⟩)
      · exact ⟨hlt, Or.inl rfl⟩
      · exact ⟨hc, Or.inr hc'⟩
  have hnot : b ∉ freeBits fs := by
    rw [mem_freeBits, hbit]
    rintro ⟨-, hfalse⟩
    cases hfalse
  have htarget : ∀ i pos, target fs₁ i pos = target fs i pos :=
    target_of_eq rfl rfl
  refine ⟨(h.exact.congr (refers_congr fun i _ => htarget i)
    fun _ => Iff.rfl).give hb hused,
    ⟨hnbits.trans h.map.nbits, ?_, h.map.blocks_lt, ?_, ?_⟩, h.files_pos,
    h.root, h.root_dir, h.loaded⟩
  · show freemap.nwords * wordBits = sfsFreemapBits fs.super
    rw [hnwords]
    exact h.map.nwords
  · intro c hc
    have hc' : c ∈ insert b (freeBits fs) := hfreeBits ▸ hc
    rcases Finset.mem_insert.mp hc' with rfl | hc'
    · exact ⟨hlo', hhi⟩
    · exact h.map.free_range hc'
  · show fs.super.unusedBlocks + 1 = (freeBits fs₁).card
    rw [hfreeBits, Finset.card_insert_of_notMem hnot, h.map.unused_eq]

/-- `sfs_block_inuse` only looks. -/
theorem sfsBlockInuse_run {v : Bool} (h : sfsBlockInuse b fs = some (v, fs')) :
    fs' = fs ∧ b ≠ 0 ∧ b < fs.super.blocks ∧ fs.freemap.bit b = !v := by
  unfold sfsBlockInuse at h
  simp only [Call.bind_eq_some, Call.get_eq_some, Call.assert_eq_some,
    Call.ofOption_eq_some, Call.pure_eq_some] at h
  obtain ⟨_, _, ⟨rfl, rfl⟩, _, _, ⟨⟨hne, hlt⟩, rfl⟩, free, _, ⟨htest, rfl⟩,
    rfl, rfl⟩ := h
  obtain ⟨-, hbit⟩ := bitmapTest_eq_some.mp htest
  exact ⟨rfl, hne, hlt, by rw [hbit, Bool.not_not]⟩

theorem rwCheck_run {u : Unit} (h : rwCheck b fs = some (u, fs')) :
    fs' = fs ∧ b ≠ 0 ∧ b < fs.super.blocks := by
  unfold rwCheck at h
  simp only [Call.bind_eq_some, Call.get_eq_some, Call.assert_eq_some] at h
  obtain ⟨_, _, ⟨rfl, rfl⟩, hcheck, rfl⟩ := h
  exact ⟨rfl, hcheck⟩

/-- `sfs_block_alloc` fails without an effect when no block is free, or takes
a cleared block in hand. -/
theorem sfsBlockAlloc_spec {r : Except Err Nat} (h : Inv held ⟨fs, files⟩)
    (hrun : sfsBlockAlloc fs = some (r, fs')) :
    (r = .error .noMem ∧ fs' = fs ∧ fs.super.unusedBlocks = 0)
      ∨ ∃ ino, r = .ok ino ∧ ino ∉ held ∧ ino ≠ 0
        ∧ reservedBlocks fs.super ≤ ino ∧ ino < fs.super.blocks
        ∧ Inv (insert ino held) ⟨fs', files⟩ ∧ fs'.inodes = fs.inodes
        ∧ fs'.super.blocks = fs.super.blocks
        ∧ (∀ d, d ≠ ino → fs'.disk d = fs.disk d)
        ∧ (∀ k, fs'.disk ino k = 0) ∧ Quiet files fs fs'
        ∧ fs.super.unusedBlocks = fs'.super.unusedBlocks + 1 := by
  unfold sfsBlockAlloc at hrun
  simp only [Call.bind_eq_some, Call.get_eq_some, Call.ofOption_eq_some]
    at hrun
  obtain ⟨_, _, ⟨rfl, rfl⟩, o, _, ⟨halloc, rfl⟩, hrun⟩ := hrun
  cases o with
  | none =>
      simp only [Call.pure_eq_some] at hrun
      refine Or.inl ⟨hrun.1, hrun.2, ?_⟩
      rcases bitmapAlloc_spec halloc with ⟨-, hclear⟩ | ⟨_, _, heq, -⟩
      · rw [h.map.unused_eq]
        apply Finset.card_eq_zero.2
        apply Finset.eq_empty_of_forall_notMem
        intro b hb
        obtain ⟨hlt, hbit⟩ := mem_freeBits.1 hb
        rw [hclear b (by rw [h.map.nwords]; exact hlt)] at hbit
        cases hbit
      · cases heq
  | some a =>
      obtain ⟨ino, freemap⟩ := a
      obtain ⟨hinv, hnot, hlo, hhi⟩ := h.take halloc
      unfold sfsClearBlock at hrun
      simp only [Call.bind_eq_some, Call.assert_eq_some, Call.modify_eq_some,
        Call.pure_eq_some] at hrun
      obtain ⟨_, _, ⟨hpos, rfl⟩, _, fs₁, hmap, inuse, _, hinuse, _, _,
        ⟨-, rfl⟩, _, _, ⟨_, _, hcheck, rfl⟩, rfl, rfl⟩ := hrun
      obtain ⟨rfl, hne, -, -⟩ := sfsBlockInuse_run hinuse
      obtain ⟨rfl, -, -⟩ := rwCheck_run hcheck
      subst hmap
      refine Or.inr ⟨ino, rfl, hnot, hne, hlo, hhi, ?_, rfl, rfl, ?_, ?_, ?_, ?_⟩
      · exact hinv.write (Finset.mem_insert_self ino held) rfl rfl rfl
          fun d hd => Function.update_of_ne hd _ _
      · exact fun d hd => Function.update_of_ne hd _ _
      · intro k
        dsimp only
        rw [Function.update_self]
      · refine ⟨fun {b} hb => Function.update_of_ne ?_ _ _, rfl, Or.inl rfl⟩
        rcases hb with hb | hb
        · exact hinv.ne_inode (Finset.mem_insert_self ino held) hb
        · omega
      · exact (Nat.sub_add_cancel hpos).symm

/-- Giving a block back writes no block. -/
theorem Quiet.withFreemap (freemap : Bitmap) (unused : Nat) :
    Quiet files fs (withFreemap fs freemap unused) :=
  ⟨fun _ => rfl, rfl, Or.inl rfl⟩

/-- `sfs_block_free`. -/
theorem sfsBlockFree_run {u : Unit}
    (hrun : sfsBlockFree b fs = some (u, fs')) :
    ∃ freemap, bitmapFree fs.freemap b = some freemap
      ∧ fs' = withFreemap fs freemap (fs.super.unusedBlocks + 1) := by
  unfold sfsBlockFree at hrun
  simp only [Call.bind_eq_some, Call.assert_eq_some, Call.get_eq_some,
    Call.ofOption_eq_some, Call.modify_eq_some] at hrun
  obtain ⟨inuse, _, hinuse, _, _, ⟨-, rfl⟩, _, _, ⟨rfl, rfl⟩, freemap, _,
    ⟨hfree, rfl⟩, rfl⟩ := hrun
  obtain ⟨rfl, -⟩ := sfsBlockInuse_run hinuse
  exact ⟨freemap, hfree, rfl⟩

/-- A block in hand that `sfs_block_free` gets back. -/
theorem sfsBlockFree_spec {u : Unit} (h : Inv (insert b held) ⟨fs, files⟩)
    (hb : b ∉ held) (hrun : sfsBlockFree b fs = some (u, fs')) :
    Inv held ⟨fs', files⟩ ∧ fs'.inodes = fs.inodes ∧ fs'.disk = fs.disk
      ∧ Quiet files fs fs' := by
  obtain ⟨freemap, hfree, rfl⟩ := sfsBlockFree_run hrun
  exact ⟨h.give hb hfree, rfl, rfl, Quiet.withFreemap freemap _⟩

end Ucore.Sfs
