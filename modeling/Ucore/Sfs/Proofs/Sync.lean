/-
`sfs_sync` writes what is dirty, and the device then mounts as the same
volume.

While the free map or the super block are written only reserved blocks
change, and while an inode is written only its block: neither is an indirect
block, so the block maps stay.
-/
import Ucore.Sfs.Proofs.Reclaim

namespace Ucore.Sfs

variable {fs fs' fs₁ : SfsFs} {files : Finset Nat} {i b : Nat}
  {node : SfsInode} {dev : Device}

-- ===================================================== the invariant

/-- What `sfs_do_mount` checks of a super block, and the end it gives its
text. -/
structure Mountable (dev : Device) (super : SfsSuper) : Prop where
  blocksize : dev.dBlocksize = sfsBlksize
  magic : super.magic = sfsMagic
  blocks : super.blocks ≤ dev.dBlocks
  info : super.info (Fin.last sfsMaxInfoLen) = 0

/-- Blocks are accounted for, and memory and disk agree. -/
structure Agreed (dev : Device) (files : Finset Nat) (fs : SfsFs) : Prop where
  sound : Sound True files fs
  mountable : Mountable dev fs.super
  agree : Agree fs

/-- The super block differs in the free blocks it counts. -/
theorem Mountable.quiet (h : Mountable dev fs.super)
    (hquiet : Quiet files fs fs') : Mountable dev fs'.super := by
  rw [hquiet.super]
  exact ⟨h.blocksize, h.magic, h.blocks, h.info⟩

theorem freemapBlock_ne_root (j : Nat) : sfsBlknFreemap + j ≠ sfsBlknRoot := by
  unfold sfsBlknFreemap sfsBlknRoot
  omega

theorem SuperOnDisk.quiet (h : SuperOnDisk fs) (hquiet : Quiet files fs fs')
    (hsuper : fs'.super = fs.super) (hfreemap : fs'.freemap = fs.freemap) :
    SuperOnDisk fs' := by
  have hblock : ∀ {b}, b < reservedBlocks fs.super → b ≠ sfsBlknRoot →
      fs'.disk b = fs.disk b := fun hb hroot =>
    hquiet.disk (Or.inr ⟨hb, hroot⟩)
  have hzero : fs'.disk sfsBlknSuper = fs.disk sfsBlknSuper :=
    hblock (by unfold reservedBlocks sfsBlknFreemap sfsBlknSuper; omega)
      (by decide)
  refine ⟨by rw [hzero, hsuper]; exact h.super, ?_⟩
  have hread := h.freemap
  unfold sfsInitFreemap at hread ⊢
  rw [hsuper, hfreemap]
  split at hread
  case isFalse => cases hread
  case isTrue hsize =>
      rw [if_pos hsize, ← hread, Option.some.injEq, Option.some.inj hread,
        Bitmap.mk.injEq]
      refine ⟨rfl, rfl, funext fun ix => ?_⟩
      have hmap := congrFun (congrArg Bitmap.map (Option.some.inj hread)) ix
      dsimp only at hmap
      rw [← hmap]
      split
      case isFalse => rfl
      case isTrue hix =>
          have hlt : sfsBlknFreemap + 4 * ix / sfsBlksize
              < reservedBlocks fs.super := by
            have hdiv : 4 * ix / sfsBlksize < sfsFreemapBlocks fs.super :=
              Nat.div_lt_of_lt_mul (by
                rw [Nat.mul_comm sfsBlksize, ← hsize]
                omega)
            exact Nat.add_lt_add_left hdiv _
          rw [hblock hlt (freemapBlock_ne_root _)]

/-- A call that writes one inode. -/
theorem Agreed.writes {files' : Finset Nat} (h : Agreed dev files fs)
    (hsound : Sound True files' fs') (hwrites : Writes True files i fs fs') :
    Agreed dev files' fs' := by
  refine ⟨hsound, h.mountable.quiet hwrites.quiet, fun i' => ?_, fun hd => ?_⟩
  · by_cases heq : i' = i
    · exact heq ▸ hwrites.onDisk trivial (h.agree.inode i)
    · intro n hn hclean
      have hn' : fs.inodes i' = some n := (hwrites.others heq).symm.trans hn
      have hin : i' ∈ files := (h.sound.inv.loaded hn').1
      rw [hwrites.quiet.disk (Or.inl (Finset.mem_erase.2 ⟨heq, hin⟩))]
      exact h.agree.inode i' n hn' hclean
  · rcases hwrites.quiet.marked with hdirty | ⟨hdirty, hsuper, hmap⟩
    · rw [hd] at hdirty
      cases hdirty
    · exact (h.agree.super (hdirty.symm.trans hd)).quiet hwrites.quiet hsuper
        hmap

-- =============================================== inodes written back

/-- From `fs` to `fs'` inodes and reserved blocks were written, and what
memory holds is as it was. -/
structure Flushed (files : Finset Nat) (fs fs' : SfsFs) : Prop where
  super : fs'.super = fs.super
  freemap : fs'.freemap = fs.freemap
  inode : ∀ {i}, i ∈ files → inodeOf fs' i = inodeOf fs i
  disk : ∀ {b}, b ∉ files → reservedBlocks fs.super ≤ b →
    fs'.disk b = fs.disk b
  memory : ∀ {i node'}, fs'.inodes i = some node' → ∃ node,
    fs.inodes i = some node ∧ (node.dirty = false → node'.dirty = false)

theorem Flushed.refl (files : Finset Nat) (fs : SfsFs) : Flushed files fs fs :=
  ⟨rfl, rfl, fun _ => rfl, fun _ _ => rfl, fun h => ⟨_, h, id⟩⟩

theorem Flushed.trans (h : Flushed files fs fs₁) (h' : Flushed files fs₁ fs') :
    Flushed files fs fs' where
  super := h'.super.trans h.super
  freemap := h'.freemap.trans h.freemap
  inode hi := (h'.inode hi).trans (h.inode hi)
  disk hb hlo := by
    have hlo' : reservedBlocks fs₁.super ≤ _ := h.super ▸ hlo
    exact (h'.disk hb hlo').trans (h.disk hb hlo)
  memory hn := by
    obtain ⟨node₁, hnode₁, hclean₁⟩ := h'.memory hn
    obtain ⟨node, hnode, hclean⟩ := h.memory hnode₁
    exact ⟨node, hnode, fun hd => hclean₁ (hclean hd)⟩

/-- An indirect block is neither an inode nor reserved. -/
theorem Inv.indirect_place {held : Finset Nat} (h : Inv held ⟨fs, files⟩)
    (hi : i ∈ files) (hne : (inodeOf fs i).indirect ≠ 0) :
    (inodeOf fs i).indirect ∉ files
      ∧ reservedBlocks fs.super ≤ (inodeOf fs i).indirect := by
  have hrefers : Refers ⟨fs, files⟩ (i, .indirect) (inodeOf fs i).indirect :=
    Inv.refers_indirect hi hne
  have hnot : (inodeOf fs i).indirect ∉ files := fun hin =>
    h.ne_indirect_block hin hrefers rfl
  obtain ⟨-, -, hlo | heq⟩ := h.exact.used_iff.2 (Or.inl ⟨_, hrefers⟩)
  · exact ⟨hnot, hlo⟩
  · refine absurd h.root ?_
    show sfsBlknRoot ∉ files
    rw [← heq]
    exact hnot

theorem Flushed.target {held : Finset Nat} (h : Flushed files fs fs')
    (hinv : Inv held ⟨fs, files⟩) (hi : i ∈ files) (pos : Pos) :
    target fs' i pos = target fs i pos := by
  refine target_congr (SameMap.of_eq (h.inode hi)) (fun hne j => ?_) pos
  obtain ⟨hnot, hlo⟩ := hinv.indirect_place hi hne
  rw [entryAt, entryAt, h.disk hnot hlo]

/-- What `sfs_fsync` does. -/
theorem sfsFsync_run {u : Unit} (hrun : sfsFsync i fs = some (u, fs')) :
    ∃ node, fs.inodes i = some node
      ∧ (node.dirty = false ∧ fs' = fs
        ∨ fs' = { withNode fs i { node with dirty := false } with
          disk := Function.update fs.disk i (storeBytes (fs.disk i)
            node.din.toBytes sizeofDiskInode 0) }) := by
  unfold sfsFsync at hrun
  rw [Call.bind_eq_some] at hrun
  obtain ⟨node, fs₁, hget, hrun⟩ := hrun
  obtain ⟨hnode, hsame⟩ := getSin_run hget
  rw [hsame] at hrun
  refine ⟨node, hnode, ?_⟩
  split at hrun
  case isFalse hclean =>
      rw [Call.pure_eq_some] at hrun
      exact Or.inl ⟨Bool.eq_false_iff.2 hclean, hrun.2⟩
  case isTrue hdirty =>
      rw [Call.bind_eq_some] at hrun
      obtain ⟨_, fs₂, hset, hwrite⟩ := hrun
      obtain rfl := setSin_run hset
      exact Or.inr (sfsWbuf_run hwrite)

/-- `sfs_fsync` writes one inode back. -/
theorem sfsFsync_flushed {u : Unit} (h : Sound True files fs)
    (hrun : sfsFsync i fs = some (u, fs')) : Flushed files fs fs'
      ∧ ∀ node', fs'.inodes i = some node' → node'.dirty = false := by
  obtain ⟨-, hwrites, hkept⟩ := sfsFsync_spec h hrun
  obtain ⟨node, hnode, hout⟩ := sfsFsync_run hrun
  obtain ⟨node', hnode', hclean, hdin⟩ := hkept node hnode
  have hin := (h.inv.loaded hnode).1
  have hsuper : fs'.super = fs.super ∧ fs'.freemap = fs.freemap
      ∧ ∀ b, b ≠ i → fs'.disk b = fs.disk b := by
    rcases hout with ⟨-, rfl⟩ | rfl
    · exact ⟨rfl, rfl, fun _ _ => rfl⟩
    · exact ⟨rfl, rfl, fun b hb => Function.update_of_ne hb _ _⟩
  obtain ⟨hsuper, hmap, hdisk⟩ := hsuper
  refine ⟨⟨hsuper, hmap, fun {i'} hi' => ?_, fun {b} hb _ => hdisk b ?_,
    fun {i' n} hn => ?_⟩, fun n hn => ?_⟩
  · by_cases heq : i' = i
    · subst heq
      rw [inodeOf_loaded hnode', inodeOf_loaded hnode, hdin]
    · exact inodeOf_congr (hwrites.others heq) fun _ => hdisk i' heq
  · rintro rfl
    exact hb hin
  · by_cases heq : i' = i
    · subst heq
      rw [hnode'] at hn
      cases hn
      exact ⟨node, hnode, fun _ => hclean⟩
    · exact ⟨n, (hwrites.others heq).symm.trans hn, id⟩
  · rw [hnode'] at hn
    cases hn
    exact hclean

/-- The loop of `sfs_sync` leaves none of its inodes dirty. -/
theorem fsyncAll_spec {u : Unit} : ∀ {l : List Nat} {fs : SfsFs},
    Agreed dev files fs → fsyncAll l fs = some (u, fs') →
    Agreed dev files fs' ∧ Flushed files fs fs'
      ∧ ∀ i ∈ l, ∀ node, fs'.inodes i = some node → node.dirty = false := by
  intro l
  induction l with
  | nil =>
      intro fs h hrun
      rw [fsyncAll, Call.pure_eq_some] at hrun
      obtain ⟨-, rfl⟩ := hrun
      exact ⟨h, Flushed.refl files fs', fun i hi => by cases hi⟩
  | cons sin l ih =>
      intro fs h hrun
      rw [fsyncAll, Call.bind_eq_some] at hrun
      obtain ⟨_, fs₁, hsync, hrun⟩ := hrun
      obtain ⟨hsound₁, hwrites₁, -⟩ := sfsFsync_spec h.sound hsync
      obtain ⟨hflushed₁, hclean₁⟩ := sfsFsync_flushed h.sound hsync
      obtain ⟨h', hflushed, hclean⟩ := ih (h.writes hsound₁ hwrites₁) hrun
      refine ⟨h', hflushed₁.trans hflushed, fun i hi node' hnode' => ?_⟩
      rcases List.mem_cons.1 hi with rfl | hi
      · obtain ⟨node, hnode, hkept⟩ := hflushed.memory hnode'
        exact hkept (hclean₁ node hnode)
      · exact hclean i hi node' hnode'

-- ========================================== super block and free map

/-- The super block in its bytes reads back. -/
theorem SfsSuper.ofBytes_toBytes {super : SfsSuper}
    (hmagic : super.magic < 256 ^ 4) (hblocks : super.blocks < 256 ^ 4)
    (hunused : super.unusedBlocks < 256 ^ 4) :
    ofBytes super.toBytes = super := by
  cases super with
  | mk magic blocks unusedBlocks info =>
      unfold ofBytes
      rw [SfsSuper.mk.injEq]
      refine ⟨getWord_wordByte hmagic fun k hk => ?_,
        getWord_wordByte hblocks fun k hk => ?_,
        getWord_wordByte hunused fun k hk => ?_, funext fun k => ?_⟩
      · unfold toBytes
        rw [if_pos (by omega), Nat.zero_add]
      · unfold toBytes
        rw [if_neg (by omega), if_pos (by omega), Nat.add_sub_cancel_left]
      · unfold toBytes
        rw [if_neg (by omega), if_neg (by omega), if_pos (by omega),
          Nat.add_sub_cancel_left]
      · have hk := k.isLt
        have hlt : 12 + k.val < 44 := by
          unfold sfsMaxInfoLen at hk
          omega
        unfold toBytes
        rw [if_neg (by omega), if_neg (by omega), if_neg (by omega),
          dif_pos hlt]
        exact congrArg info (Fin.ext (Nat.add_sub_cancel_left 12 k.val))

/-- A word of the free map in its bytes reads back. -/
theorem getWord_data (b : Bitmap) (buf : Nat → UInt8) (off ix : Nat)
    (h : ∀ k, k < 4 → buf (off + k) = b.data (4 * ix + k)) :
    BitVec.ofNat 32 (getWord buf off 4) = b.map ix := by
  have hword : getWord buf off 4 = (b.map ix).toNat := by
    apply getWord_wordByte (b.map ix).isLt
    intro k hk
    have hdiv : (4 * ix + k) / 4 = ix := by omega
    have hmod : (4 * ix + k) % 4 = k := by omega
    rw [h k hk, Bitmap.data, hdiv, hmod]
  rw [hword, BitVec.ofNat_toNat, BitVec.setWidth_eq]

/-- The loop of `sfs_sync_freemap`. -/
theorem wblockFreemap_run {u : Unit} : ∀ {n j : Nat} {fs : SfsFs},
    wblockFreemap n j fs = some (u, fs') →
    ∃ disk, fs' = { fs with disk := disk }
      ∧ (∀ m, j ≤ m → m < j + n → ∀ k, disk (sfsBlknFreemap + m) k
        = fs.freemap.data (m * sfsBlksize + k))
      ∧ ∀ b, b < sfsBlknFreemap + j ∨ sfsBlknFreemap + (j + n) ≤ b →
        disk b = fs.disk b := by
  intro n
  induction n with
  | zero =>
      intro j fs hrun
      rw [wblockFreemap, Call.pure_eq_some] at hrun
      obtain ⟨-, rfl⟩ := hrun
      exact ⟨fs'.disk, rfl, fun m hlo hhi => by omega, fun _ _ => rfl⟩
  | succ n ih =>
      intro j fs hrun
      simp only [wblockFreemap, Call.bind_eq_some, Call.modify_eq_some] at hrun
      obtain ⟨_, fs₁, hcheck, _, fs₂, hwrite, hrun⟩ := hrun
      obtain ⟨rfl, -⟩ := rwCheck_run hcheck
      subst hwrite
      obtain ⟨disk, hsame, hwritten, hother⟩ := ih hrun
      refine ⟨disk, hsame, fun m hlo hhi => ?_, fun b hb => ?_⟩
      · by_cases hm : m = j
        · subst hm
          rw [hother _ (Or.inl (by omega))]
          intro k
          dsimp only
          rw [Function.update_self]
        · exact hwritten m (by omega) (by omega)
      · rw [hother b (by omega)]
        exact Function.update_of_ne (by omega) _ _

/-- Writing reserved blocks other than the root inode changes no file. -/
theorem Sound.writeReserved {strict : Prop} (h : Sound strict files fs)
    (hinodes : fs'.inodes = fs.inodes) (hsuper : fs'.super = fs.super)
    (hmap : fs'.freemap = fs.freemap)
    (hdisk : ∀ b, reservedBlocks fs.super ≤ b ∨ b = sfsBlknRoot →
      fs'.disk b = fs.disk b) :
    Sound strict files fs' ∧ Flushed files fs fs' := by
  have hblock : ∀ {i}, i ∈ files → fs'.disk i = fs.disk i := fun hin =>
    hdisk _ (h.inv.exact.used_iff.2 (Or.inl ⟨_, h.inv.refers_self hin⟩)).2.2
  have hinode : ∀ {i}, i ∈ files → inodeOf fs' i = inodeOf fs i := fun hin =>
    inodeOf_congr (congrFun hinodes _) fun _ => hblock hin
  have hflushed : Flushed files fs fs' := by
    refine ⟨hsuper, hmap, hinode, fun _ hlo => hdisk _ (Or.inl hlo),
      fun {i n} hn => ⟨n, ?_, id⟩⟩
    rw [← hinodes]
    exact hn
  have htarget : ∀ {i}, i ∈ files → ∀ pos,
      target fs' i pos = target fs i pos := fun hin pos =>
    hflushed.target h.inv hin pos
  refine ⟨⟨h.inv.of_exact (h.inv.exact.congr (refers_congr fun i hin =>
    htarget hin) fun _ => Iff.rfl) hsuper hmap
      (congrArg DiskInode.type (hinode h.inv.root)) ?_, ?_⟩, hflushed⟩
  · intro i n hn
    rw [hinodes] at hn
    obtain ⟨hin, hfits, hclean⟩ := h.inv.loaded hn
    refine ⟨hin, hfits, fun hd => ?_⟩
    rw [hblock hin]
    exact hclean hd
  · intro i hin hmust pos index hpos hle
    rw [hinode hin] at hle
    rw [htarget hin]
    exact h.covered hin (hmust.congr (congrFun hinodes i)) hpos hle

-- =========================================================== syncing

/-- The super block counts fewer blocks than a word holds. -/
theorem MapOk.unused_lt (h : MapOk fs) : fs.super.unusedBlocks < 256 ^ 4 := by
  have hsub : freeBits fs ⊆ Finset.range fs.super.blocks := fun b hb =>
    Finset.mem_range.2 (h.free_range hb).2
  have hle := Finset.card_le_card hsub
  rw [Finset.card_range] at hle
  rw [h.unused_eq]
  exact Nat.lt_of_le_of_lt hle h.blocks_lt

/-- What `sfs_sync_super` and `sfs_sync_freemap` write is what memory
holds. -/
theorem superOnDisk_written {disk : Nat → Nat → UInt8}
    (hmap : MapOk fs) (hmagic : fs.super.magic = sfsMagic)
    (hsuper : disk sfsBlknSuper = fs.super.toBytes)
    (hdisk : ∀ m, m < sfsFreemapBlocks fs.super → ∀ k,
      disk (sfsBlknFreemap + m) k = fs.freemap.data (m * sfsBlksize + k)) :
    SuperOnDisk { fs with disk := disk, superDirty := false } := by
  have hmagic' : fs.super.magic < 256 ^ 4 := by
    rw [hmagic]
    decide
  have hsize : 4 * fs.freemap.nwords
      = sfsFreemapBlocks fs.super * sfsBlksize := by
    have hwords := hmap.nwords
    unfold sfsFreemapBits sfsBlkbits wordBits sfsBlksize at hwords
    unfold sfsBlksize
    omega
  refine ⟨?_, ?_⟩
  · show SfsSuper.ofBytes (disk sfsBlknSuper) = fs.super
    rw [hsuper]
    exact SfsSuper.ofBytes_toBytes hmagic' hmap.blocks_lt hmap.unused_lt
  · unfold sfsInitFreemap
    dsimp only
    rw [if_pos hsize, Option.some.injEq, Bitmap.mk.injEq]
    refine ⟨rfl, rfl, funext fun ix => ?_⟩
    split
    case isFalse => rfl
    case isTrue hix =>
        have hdiv : 4 * ix / sfsBlksize < sfsFreemapBlocks fs.super :=
          Nat.div_lt_of_lt_mul (by
            rw [Nat.mul_comm sfsBlksize, ← hsize]
            omega)
        apply getWord_data
        intro k _
        rw [hdisk _ hdiv, ← Nat.add_assoc, Nat.div_add_mod']

/-- The end of `sfs_sync`. -/
theorem syncSuper_run {u u' : Unit} {fs₂ : SfsFs}
    (hsuper : sfsSyncSuper fs = some (u, fs₂))
    (hfreemap : sfsSyncFreemap fs₂ = some (u', fs')) :
    ∃ disk, fs' = { fs with disk := disk }
      ∧ disk sfsBlknSuper = fs.super.toBytes
      ∧ (∀ m, m < sfsFreemapBlocks fs.super → ∀ k,
        disk (sfsBlknFreemap + m) k = fs.freemap.data (m * sfsBlksize + k))
      ∧ ∀ b, reservedBlocks fs.super ≤ b ∨ b = sfsBlknRoot →
        disk b = fs.disk b := by
  unfold sfsSyncSuper at hsuper
  unfold sfsSyncFreemap at hfreemap
  simp only [Call.bind_eq_some, Call.get_eq_some, Call.assert_eq_some,
    Call.modify_eq_some] at hsuper hfreemap
  obtain ⟨_, _, ⟨rfl, rfl⟩, _, _, ⟨-, rfl⟩, rfl⟩ := hsuper
  obtain ⟨_, _, ⟨rfl, rfl⟩, hblocks⟩ := hfreemap
  obtain ⟨disk, rfl, hwritten, hother⟩ := wblockFreemap_run hblocks
  dsimp only at hwritten hother ⊢
  refine ⟨disk, rfl, ?_, fun m hm k => ?_, fun b hb => ?_⟩
  · rw [hother _ (Or.inl (by decide)), Function.update_self]
  · exact hwritten m (Nat.zero_le m) (by rwa [Nat.zero_add]) k
  · unfold reservedBlocks at hb
    have hne : b ≠ sfsBlknSuper := by
      unfold sfsBlknFreemap sfsBlknRoot at hb
      unfold sfsBlknSuper
      omega
    rw [hother b, Function.update_of_ne hne]
    rcases hb with hb | rfl
    · exact Or.inr (by rwa [Nat.zero_add])
    · exact Or.inl (by decide)

/-- Writing the super block and the free map. -/
theorem Agreed.syncSuper (h : Agreed dev files fs)
    {disk : Nat → Nat → UInt8} (hsuper : disk sfsBlknSuper = fs.super.toBytes)
    (hwritten : ∀ m, m < sfsFreemapBlocks fs.super → ∀ k,
      disk (sfsBlknFreemap + m) k = fs.freemap.data (m * sfsBlksize + k))
    (hkept : ∀ b, reservedBlocks fs.super ≤ b ∨ b = sfsBlknRoot →
      disk b = fs.disk b)
    (hsame : fs' = { fs with superDirty := false, disk := disk }) :
    Agreed dev files fs' ∧ Flushed files fs fs' := by
  have hreserved : Sound True files fs' ∧ Flushed files fs fs' := by
    subst hsame
    exact h.sound.writeReserved rfl rfl rfl hkept
  obtain ⟨hsound, hflushed⟩ := hreserved
  subst hsame
  have honDisk := superOnDisk_written h.sound.inv.map h.mountable.magic hsuper
    hwritten
  refine ⟨⟨hsound, h.mountable, ⟨fun i => ?_, fun _ => honDisk⟩⟩, hflushed⟩
  intro node hnode hd
  have hin : i ∈ files := (h.sound.inv.loaded hnode).1
  have hplace := (h.sound.inv.exact.used_iff.2
    (Or.inl ⟨_, h.sound.inv.refers_self hin⟩)).2.2
  show node.din = DiskInode.ofBytes (disk i)
  rw [hkept i hplace]
  exact h.agree.inode i node hnode hd

/-- `sfs_sync` over the inodes in memory: nothing is dirty. -/
theorem sfsSync_spec {r : Except Err Unit} {inodeList : List Nat}
    (h : Agreed dev files fs) (hlist : InodeList fs inodeList)
    (hrun : sfsSync inodeList fs = some (r, fs')) :
    Agreed dev files fs' ∧ Flushed files fs fs' ∧ fs'.superDirty = false
      ∧ ∀ i node, fs'.inodes i = some node → node.dirty = false := by
  unfold sfsSync at hrun
  rw [Call.bind_eq_some] at hrun
  obtain ⟨_, fs₁, hinodes, hrun⟩ := hrun
  rw [Call.bind_eq_some] at hrun
  obtain ⟨s, t, hget, hrun⟩ := hrun
  obtain ⟨hs, ht⟩ := Call.get_eq_some.1 hget
  rw [hs, ht] at hrun
  obtain ⟨h₁, hflushed₁, hclean₁⟩ := fsyncAll_spec h hinodes
  have hclean : ∀ i node, fs₁.inodes i = some node → node.dirty = false := by
    intro i node' hnode'
    obtain ⟨node, hnode, -⟩ := hflushed₁.memory hnode'
    have hin : i ∈ inodeList := (hlist i).2 (by rw [hnode]; rintro ⟨⟩)
    exact hclean₁ i hin node' hnode'
  split at hrun
  case isFalse hdirty =>
      rw [Call.pure_eq_some] at hrun
      obtain ⟨-, rfl⟩ := hrun
      exact ⟨h₁, hflushed₁, Bool.eq_false_iff.2 hdirty, hclean⟩
  case isTrue =>
      rw [Call.bind_eq_some] at hrun
      obtain ⟨_, fs₂, hmark, hrun⟩ := hrun
      rw [Call.modify_eq_some] at hmark
      rw [Call.bind_eq_some] at hrun
      obtain ⟨_, fs₃, hsuper, hrun⟩ := hrun
      rw [Call.bind_eq_some] at hrun
      obtain ⟨_, fs₄, hblocks, hrun⟩ := hrun
      rw [Call.pure_eq_some] at hrun
      obtain ⟨-, rfl⟩ := hrun
      obtain ⟨disk, hsame, hfirst, hwritten, hkept⟩ :=
        syncSuper_run hsuper hblocks
      subst hmark
      obtain ⟨h', hflushed⟩ := h₁.syncSuper hfirst hwritten hkept hsame
      refine ⟨h', hflushed₁.trans hflushed, ?_, ?_⟩
      · rw [hsame]
      · rw [hsame]
        exact hclean

-- ========================================================== mounting

/-- The map `bitmap_create` makes for whole words. -/
theorem bitmapCreate_words {nwords : Nat} (hpos : 0 < nwords) :
    bitmapCreate (nwords * wordBits) = some
      { nbits := nwords * wordBits
        nwords := nwords
        map := fun ix => if ix < nwords then BitVec.allOnes 32 else 0 } := by
  have hround : roundupDiv (nwords * wordBits) wordBits = nwords := by
    unfold roundupDiv wordBits
    omega
  have hne : nwords * wordBits ≠ 0 :=
    Nat.ne_of_gt (Nat.mul_pos hpos (by decide))
  unfold bitmapCreate
  dsimp only
  rw [if_pos hne, hround, if_neg (not_not_intro rfl)]

/-- The words of the free map that a mount reads. -/
def Bitmap.read (b : Bitmap) : Bitmap where
  nbits := b.nwords * wordBits
  nwords := b.nwords
  map ix := if ix < b.nwords then b.map ix else 0

theorem Bitmap.bit_read {b : Bitmap} {k : Nat} (h : k < b.nwords * wordBits) :
    b.read.bit k = b.bit k := by
  have hix : k / wordBits < b.nwords :=
    Nat.div_lt_of_lt_mul (by rwa [Nat.mul_comm])
  unfold Bitmap.bit
  rw [show b.read.map (k / wordBits) = b.map (k / wordBits) from if_pos hix]

/-- `bitmap_create` and `sfs_init_freemap` read the free map that is on
disk. -/
theorem SuperOnDisk.read (h : SuperOnDisk fs)
    (hwords : fs.freemap.nwords * wordBits = sfsFreemapBits fs.super)
    (hpos : 0 < fs.freemap.nwords) :
    ((bitmapCreate (sfsFreemapBits fs.super)).bind fun freemap =>
      sfsInitFreemap freemap (sfsFreemapBlocks fs.super) fs.disk)
      = some fs.freemap.read := by
  have hread := h.freemap
  unfold sfsInitFreemap at hread
  split at hread
  case isFalse => cases hread
  case isTrue hsize =>
      rw [← hwords, bitmapCreate_words hpos, Option.bind_some, sfsInitFreemap,
        if_pos hsize, Option.some.injEq, Bitmap.read, Bitmap.mk.injEq]
      refine ⟨rfl, rfl, funext fun ix => ?_⟩
      have hword := congrFun (congrArg Bitmap.map (Option.some.inj hread)) ix
      dsimp only at hword ⊢
      split
      case isTrue hix => rwa [if_pos hix] at hword
      case isFalse => rfl

/-- The free bits `sfs_do_mount` counts. -/
theorem countP_free {b : Bitmap}
    (hwords : fs.freemap.nwords * wordBits = sfsFreemapBits fs.super)
    (hb : b = fs.freemap.read) :
    ((List.range (sfsFreemapBits fs.super)).countP fun i =>
      bitmapTest b i = some true) = (freeBits fs).card := by
  have hcard : (freeBits fs).card
      = ((List.range (sfsFreemapBits fs.super)).filter fun i =>
        fs.freemap.bit i = true).length := rfl
  rw [hcard, ← List.countP_eq_length_filter]
  apply List.countP_congr
  intro i hi
  have hlt : i < fs.freemap.nwords * wordBits := by
    rw [hwords]
    exact List.mem_range.1 hi
  rw [decide_eq_true_eq, decide_eq_true_eq, bitmapTest_eq_some, hb,
    Bitmap.bit_read hlt]
  exact ⟨fun hboth => hboth.2, fun hfree => ⟨hlt, hfree⟩⟩

/-- A device with this super block and free map mounts. -/
theorem SuperOnDisk.mounts (h : SuperOnDisk fs) (hmap : MapOk fs)
    (hpos : 0 < fs.freemap.nwords) (hmountable : Mountable dev fs.super) :
    sfsDoMount dev fs.disk = some (.ok
      { fs with
        freemap := fs.freemap.read
        superDirty := false
        inodes := fun _ => none }) := by
  have hinfo : Function.update fs.super.info (Fin.last sfsMaxInfoLen) 0
      = fs.super.info := by
    rw [← hmountable.info, Function.update_eq_self]
  unfold sfsDoMount
  rw [if_neg (not_not_intro hmountable.blocksize)]
  dsimp only
  rw [h.super, if_neg (not_not_intro hmountable.magic),
    if_neg (Nat.not_lt.2 hmountable.blocks), h.read hmap.nwords hpos]
  dsimp only
  rw [if_pos ((countP_free hmap.nwords rfl).trans hmap.unused_eq.symm), hinfo]

/-- A device with what memory holds mounts. -/
theorem Agreed.mounts (h : Agreed dev files fs)
    (hdirty : fs.superDirty = false)
    (hclean : ∀ i node, fs.inodes i = some node → node.dirty = false) :
    ∃ fs', sfsDoMount dev fs.disk = some (.ok fs')
      ∧ SameVolume ⟨fs, files⟩ fs' := by
  have honDisk := h.agree.super hdirty
  have hmap := h.sound.inv.map
  have hwords : fs.freemap.nwords * wordBits = sfsFreemapBits fs.super :=
    hmap.nwords
  have hpos : 0 < fs.freemap.nwords := by
    obtain ⟨hlt, -, -⟩ := h.sound.inv.exact.used_iff.2
      (Or.inl ⟨_, h.sound.inv.refers_self h.sound.inv.root⟩)
    have hlt' : sfsBlknRoot < fs.super.blocks := hlt
    have hle := blocks_le_freemapBits fs.super
    apply Nat.pos_of_ne_zero
    intro hzero
    rw [hzero, Nat.zero_mul] at hwords
    omega
  let fs' : SfsFs := { fs with
    freemap := fs.freemap.read, superDirty := false, inodes := fun _ => none }
  have hmount : sfsDoMount dev fs.disk = some (.ok fs') :=
    honDisk.mounts hmap hpos h.mountable
  have hinode : ∀ {i}, inodeOf fs' i = inodeOf fs i := by
    intro i
    rw [inodeOf_unloaded rfl]
    cases hnode : fs.inodes i with
    | none => exact (inodeOf_unloaded hnode).symm
    | some node =>
        rw [inodeOf_loaded hnode]
        exact (h.agree.inode i node hnode (hclean i node hnode)).symm
  refine ⟨fs', hmount, rfl, fun hb => ?_, fun _ => hinode, fun _ pos => ?_⟩
  · exact Bitmap.bit_read (hwords.symm ▸ hb)
  · exact target_congr (SameMap.of_eq hinode) (fun _ _ => rfl) pos

end Ucore.Sfs
