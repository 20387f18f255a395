/-
Memory and disk of a mounted volume agree over every run of file operations,
but where a file that uses its indirect block stops growing halfway.
-/
import Ucore.Lib.Run
import Ucore.Sfs.Proofs.Account
import Ucore.Sfs.Proofs.Sync

namespace Ucore.Sfs

variable {fs fs' : SfsFs} {files : Finset Nat} {i : Nat} {node : SfsInode}
  {dev : Device} {disk : Nat → Nat → UInt8} {v v' : Volume} {op : FileOp}
  {ops : List FileOp} {strict : Prop}

-- ================================================= looking up blocks

theorem sfsBmapGetSubNolock_look {o : Except Err (Nat × Nat)}
    {entp index : Nat}
    (hrun : sfsBmapGetSubNolock entp index false fs = some (o, fs')) :
    fs' = fs ∧ ∃ ino, o = .ok (entp, ino) := by
  unfold sfsBmapGetSubNolock at hrun
  rw [Call.bind_eq_some] at hrun
  obtain ⟨_, fs₁, hassert, hrun⟩ := hrun
  rw [Call.assert_eq_some] at hassert
  obtain ⟨-, hsame⟩ := hassert
  rw [hsame] at hrun
  dsimp only at hrun
  split at hrun
  case isTrue =>
      rw [Call.bind_eq_some] at hrun
      obtain ⟨buf, fs₂, hread, hrun⟩ := hrun
      rw [if_pos (Or.inr rfl), Call.pure_eq_some] at hrun
      obtain ⟨rfl, rfl⟩ := hrun
      exact ⟨(sfsRbuf_run hread).1, _, rfl⟩
  case isFalse =>
      rw [if_pos rfl, Call.pure_eq_some] at hrun
      obtain ⟨rfl, rfl⟩ := hrun
      exact ⟨rfl, _, rfl⟩

/-- Where no block is asked for the map functions only look. -/
theorem sfsBmapGetNolock_look {r : Except Err Nat} {index : Nat}
    (hrun : sfsBmapGetNolock i index false fs = some (r, fs')) : fs' = fs := by
  unfold sfsBmapGetNolock at hrun
  rw [Call.bind_eq_some] at hrun
  obtain ⟨node, _, hget, hrun⟩ := hrun
  obtain ⟨-, rfl⟩ := getSin_run hget
  dsimp only at hrun
  split at hrun
  case isTrue =>
      rw [if_neg (fun hboth => by cases hboth.2)] at hrun
      exact (bmapGetOut_run hrun).2
  case isFalse =>
      split at hrun
      case isFalse => exact absurd hrun Call.panic_ne_some
      case isTrue =>
          rw [Call.bind_eq_some] at hrun
          obtain ⟨o, fs₁, hsub, hrun⟩ := hrun
          obtain ⟨rfl, ino, rfl⟩ := sfsBmapGetSubNolock_look hsub
          dsimp only at hrun
          rw [if_neg (not_not_intro rfl)] at hrun
          exact (bmapGetOut_run hrun).2

/-- `sfs_bmap_load_nolock` of a block the file has. -/
theorem sfsBmapLoadNolock_look {r : Except Err Nat} {index : Nat}
    (hnode : fs.inodes i = some node) (hlt : index < node.din.blocks)
    (hrun : sfsBmapLoadNolock i index fs = some (r, fs')) : fs' = fs := by
  unfold sfsBmapLoadNolock at hrun
  simp only [Call.bind_eq_some, Call.assert_eq_some] at hrun
  obtain ⟨n, _, hget, _, _, ⟨-, rfl⟩, o, fs₁, hmap, hrun⟩ := hrun
  obtain ⟨hn, hsame⟩ := getSin_run hget
  rw [hnode] at hn
  cases hn
  have hlook : decide (index = node.din.blocks) = false :=
    decide_eq_false (Nat.ne_of_lt hlt)
  rw [hlook] at hrun hmap
  rw [hsame] at hmap
  obtain rfl := sfsBmapGetNolock_look hmap
  cases o with
  | error e =>
      dsimp only at hrun
      rw [Call.pure_eq_some] at hrun
      exact hrun.2
  | ok ino =>
      dsimp only at hrun
      simp only [Call.bind_eq_some, Call.assert_eq_some] at hrun
      obtain ⟨_, fs₂, hinuse, _, _, ⟨-, rfl⟩, hrun⟩ := hrun
      rw [if_neg (by decide), Call.pure_eq_some] at hrun
      exact hrun.2.trans (sfsBlockInuse_run hinuse).1

/-- `sfs_dirent_read_nolock` only looks. -/
theorem sfsDirentReadNolock_run {r : Except Err Unit} {slot : Nat}
    (hrun : sfsDirentReadNolock i slot fs = some (r, fs')) : fs' = fs := by
  unfold sfsDirentReadNolock at hrun
  simp only [Call.bind_eq_some, Call.assert_eq_some] at hrun
  obtain ⟨node, _, hget, _, _, ⟨hslot, rfl⟩, o, fs₁, hload, hrun⟩ := hrun
  obtain ⟨hnode, hsame⟩ := getSin_run hget
  rw [hsame] at hload
  obtain rfl := sfsBmapLoadNolock_look hnode hslot.2 hload
  cases o with
  | error e =>
      dsimp only at hrun
      rw [Call.pure_eq_some] at hrun
      exact hrun.2
  | ok ino =>
      dsimp only at hrun
      simp only [Call.bind_eq_some, Call.assert_eq_some, Call.pure_eq_some]
        at hrun
      obtain ⟨_, fs₂, hinuse, _, _, ⟨-, rfl⟩, _, fs₃, hread, -, rfl⟩ := hrun
      exact (sfsRbuf_run hread).1.trans (sfsBlockInuse_run hinuse).1

-- ============================================================= calls

/-- `sfs_io_nolock` sets a size at most, and marks the inode. -/
theorem sfsIoNolock_spec {r : Except Err Nat} {offset : Int} {alen : Nat}
    {write : Bool} (h : Sound strict files fs)
    (hrun : sfsIoNolock i offset alen write fs = some (r, fs')) :
    Sound strict files fs' ∧ Writes strict files i fs fs' := by
  unfold sfsIoNolock at hrun
  simp only [Call.bind_eq_some, Call.assert_eq_some] at hrun
  obtain ⟨node, _, hget, _, _, ⟨-, rfl⟩, hrun⟩ := hrun
  obtain ⟨hnode, hsame⟩ := getSin_run hget
  rw [hsame] at hrun
  have hkept : ∀ {o : Except Err Nat},
      (pure o : SfsM (Except Err Nat)) fs = some (r, fs') →
      Sound strict files fs' ∧ Writes strict files i fs fs' := by
    intro o hpure
    rw [Call.pure_eq_some] at hpure
    obtain ⟨-, rfl⟩ := hpure
    exact ⟨h, Writes.refl _ _ _ _⟩
  split at hrun
  case isTrue => exact hkept hrun
  case isFalse hvalid =>
      split at hrun
      case isTrue => exact hkept hrun
      case isFalse =>
          split at hrun
          case isTrue => exact hkept hrun
          case isFalse =>
              split at hrun
              case isFalse => exact hkept hrun
              case isTrue =>
                  rw [Call.bind_eq_some] at hrun
                  obtain ⟨_, fs₁, hstore, hrun⟩ := hrun
                  rw [Call.pure_eq_some] at hrun
                  obtain ⟨-, rfl⟩ := hrun
                  obtain rfl := setSin_run hstore
                  obtain ⟨-, hfits, -⟩ := h.inv.loaded hnode
                  have hsize : offset.toNat < 256 ^ 4 := by
                    unfold sfsMaxFileSize at hvalid
                    omega
                  let node' : SfsInode := { node with
                    din := { node.din with size := offset.toNat }
                    dirty := true }
                  have hfits' : node'.din.Fits :=
                    ⟨hsize, hfits.type, hfits.nlinks, hfits.blocks,
                      hfits.direct, hfits.indirect⟩
                  have hsame' : SameMap node'.din node.din := ⟨rfl, rfl, rfl⟩
                  have hcovered : strict ∨ node.din.nlinks = 0 →
                      CoveredBy fs i node.din.blocks := fun hmust =>
                    h.covered_loaded hnode hmust
                  refine ⟨h.setBlocks h.inv
                    (MapChange.refl (p := fun _ => False) fs)
                    (Quiet.refl _ fs) hnode hsame' hfits'
                    (fun h => by cases h) hcovered,
                    fun hne => withNode_ne hne,
                    Quiet.of_memory rfl rfl rfl rfl, fun _ _ => ?_⟩
                  exact OnDisk.of_dirty withNode_self rfl

/-- `vop_truncate` that is not torn. -/
theorem Agreed.truncate {r : Except Err Unit} {len : Int}
    (h : Agreed dev files fs) (hno : ¬ Torn fs i len)
    (hrun : vopTruncate i len fs = some (r, fs')) : Agreed dev files fs' := by
  obtain ⟨hsound, hframe, -⟩ := vopTruncate_spec h.sound hrun
  exact h.writes hsound (hframe.writes fun _ hdisk =>
    vopTruncate_onDisk h.sound hdisk hno hrun)

/-- What is left of `vop_tryseek`. -/
theorem vopTryseek_run {r : Except Err Unit} {pos : Int}
    (hrun : vopTryseek i pos fs = some (r, fs')) :
    (pos < 0 ∨ sfsMaxFileSize ≤ pos ∨ pos ≤ (inodeOf fs i).size) ∧ fs' = fs
      ∨ pos < sfsMaxFileSize ∧ (inodeOf fs i).size < pos
        ∧ vopTruncate i pos fs = some (r, fs') := by
  unfold vopTryseek sfsTryseek at hrun
  simp only [Call.bind_eq_some, Call.assert_eq_some] at hrun
  obtain ⟨_, _, hget, _, _, ⟨-, rfl⟩, hrun⟩ := hrun
  obtain ⟨-, hsame⟩ := getSin_run hget
  rw [hsame] at hrun
  split at hrun
  case isTrue hpos =>
      rw [Call.pure_eq_some] at hrun
      exact Or.inl ⟨hpos.imp_right Or.inl, hrun.2⟩
  case isFalse hpos =>
      rw [Call.bind_eq_some] at hrun
      obtain ⟨node, _, hget', hrun⟩ := hrun
      obtain ⟨hnode, hsame'⟩ := getSin_run hget'
      rw [hsame'] at hrun
      split at hrun
      case isFalse hsize =>
          rw [Call.pure_eq_some] at hrun
          rw [inodeOf_loaded hnode]
          exact Or.inl ⟨Or.inr (Or.inr (Int.not_lt.1 hsize)), hrun.2⟩
      case isTrue hsize =>
          rw [inodeOf_loaded hnode]
          exact Or.inr ⟨by omega, hsize, hrun⟩

/-- A call that is not torn keeps the agreement. -/
theorem Agreed.step (h : Agreed dev v.files v.fs) (hstep : WholeStep v op v') :
    Agreed dev v'.files v'.fs := by
  obtain ⟨hcall, hno⟩ := hstep
  cases hcall with
  | call hlegal hexec =>
      cases op with
      | loadInode ino =>
          obtain ⟨⟨_, _⟩, hrun, rfl⟩ := Option.map_eq_some_iff.mp hexec
          obtain ⟨hsound, hwrites⟩ := sfsLoadInode_spec h.sound hlegal hrun
          exact h.writes hsound hwrites
      | refInc sin =>
          obtain ⟨⟨_, _⟩, hrun, rfl⟩ := Option.map_eq_some_iff.mp hexec
          obtain ⟨hsound, hwrites⟩ := inodeRefInc_spec h.sound hrun
          exact h.writes hsound hwrites
      | refDec sin =>
          obtain ⟨⟨_, fs'⟩, hrun, rfl⟩ := Option.map_eq_some_iff.mp hexec
          obtain ⟨hwrites, node, hnode, hout⟩ :=
            inodeRefDec_spec h.sound (fun _ => h.agree.inode sin) hrun
          have hdin := inodeOf_loaded hnode
          show Agreed dev (FileOp.filesAfter v fs' (.refDec sin)) fs'
          rcases hout with ⟨hgone, hnone⟩ | ⟨hsound, node', hnode'⟩
          · have hfiles : FileOp.filesAfter v fs' (.refDec sin)
                = filesWithout v.files sin node.din := by
              simp [FileOp.filesAfter, filesWithout, hnone, hdin]
            rw [hfiles]
            exact h.writes hgone hwrites
          · have hfiles : FileOp.filesAfter v fs' (.refDec sin) = v.files := by
              simp [FileOp.filesAfter, hnode']
            rw [hfiles]
            exact h.writes hsound hwrites
      | direntRead sin slot =>
          obtain ⟨⟨_, _⟩, hrun, rfl⟩ := Option.map_eq_some_iff.mp hexec
          obtain rfl := sfsDirentReadNolock_run hrun
          exact h
      | io sin offset alen write =>
          obtain ⟨⟨_, _⟩, hrun, rfl⟩ := Option.map_eq_some_iff.mp hexec
          unfold vopIo at hrun
          simp only [Call.bind_eq_some, Call.assert_eq_some] at hrun
          obtain ⟨_, _, hget, _, _, ⟨-, rfl⟩, hrun⟩ := hrun
          obtain ⟨-, hsame⟩ := getSin_run hget
          rw [hsame] at hrun
          obtain ⟨hsound, hwrites⟩ := sfsIoNolock_spec h.sound hrun
          exact h.writes hsound hwrites
      | tryseek sin pos =>
          obtain ⟨⟨_, fs'⟩, hrun, rfl⟩ := Option.map_eq_some_iff.mp hexec
          show Agreed dev v.files fs'
          rcases vopTryseek_run hrun with ⟨-, rfl⟩ | ⟨hlt, hsize, hrun⟩
          · exact h
          · exact h.truncate (fun htorn => hno ⟨hlt, hsize, htorn⟩) hrun
      | truncate sin len =>
          obtain ⟨⟨_, _⟩, hrun, rfl⟩ := Option.map_eq_some_iff.mp hexec
          exact h.truncate hno hrun
      | fsync sin =>
          obtain ⟨⟨_, _⟩, hrun, rfl⟩ := Option.map_eq_some_iff.mp hexec
          obtain ⟨hsound, hwrites, -⟩ := sfsFsync_spec h.sound hrun
          exact h.writes hsound hwrites
      | sync inodeList =>
          obtain ⟨⟨_, _⟩, hrun, rfl⟩ := Option.map_eq_some_iff.mp hexec
          exact (sfsSync_spec h hlegal hrun).1

/-- A torn call breaks it. -/
theorem Agreed.torn (h : Agreed dev v.files v.fs) (hstep : FileStep v op v')
    (htorn : op.Torn v.fs) : ¬ Agree v'.fs := by
  cases hstep with
  | call hlegal hexec =>
      cases op with
      | truncate sin len =>
          obtain ⟨⟨_, _⟩, hrun, rfl⟩ := Option.map_eq_some_iff.mp hexec
          exact fun hagree => vopTruncate_torn h.sound (h.agree.inode sin)
            htorn hrun (hagree.inode sin)
      | tryseek sin pos =>
          obtain ⟨⟨_, _⟩, hrun, rfl⟩ := Option.map_eq_some_iff.mp hexec
          obtain ⟨hlt, hsize, htorn⟩ := htorn
          rcases vopTryseek_run hrun with ⟨hkept, -⟩ | ⟨-, -, htruncate⟩
          · omega
          · exact fun hagree => vopTruncate_torn h.sound (h.agree.inode sin)
              htorn htruncate (hagree.inode sin)
      | _ => exact htorn.elim

-- ============================================================== runs

/-- Reading the free map again changes none of its words. -/
theorem sfsInitFreemap_again {b b' : Bitmap} {n : Nat}
    (h : sfsInitFreemap b n disk = some b') :
    sfsInitFreemap b' n disk = some b' := by
  unfold sfsInitFreemap at h ⊢
  split at h
  case isFalse => cases h
  case isTrue hsize =>
      cases h
      rw [if_pos hsize, Option.some.injEq, Bitmap.mk.injEq]
      refine ⟨rfl, rfl, funext fun ix => ?_⟩
      dsimp only
      split
      case isTrue => rfl
      case isFalse => rfl

/-- What a mount that succeeds went through. -/
theorem sfsDoMount_cases
    (h : sfsDoMount dev disk = some (.ok fs)) :
    ∃ super freemap m, super = SfsSuper.ofBytes (disk sfsBlknSuper)
      ∧ dev.dBlocksize = sfsBlksize ∧ super.magic = sfsMagic
      ∧ super.blocks ≤ dev.dBlocks
      ∧ bitmapCreate (sfsFreemapBits super) = some m
      ∧ sfsInitFreemap m (sfsFreemapBlocks super) disk = some freemap
      ∧ fs = {
          super := { super with
            info := Function.update super.info (Fin.last sfsMaxInfoLen) 0 }
          freemap := freemap
          superDirty := false
          disk := disk
          inodes := fun _ => none } := by
  generalize hsuper : SfsSuper.ofBytes (disk sfsBlknSuper) = super
  unfold sfsDoMount at h
  rw [hsuper] at h
  by_cases hsize : dev.dBlocksize ≠ sfsBlksize
  · rw [if_pos hsize] at h
    cases h
  rw [if_neg hsize] at h
  by_cases hmagic : super.magic ≠ sfsMagic
  · rw [if_pos hmagic] at h
    cases h
  rw [if_neg hmagic] at h
  by_cases hblocks : dev.dBlocks < super.blocks
  · rw [if_pos hblocks] at h
    cases h
  rw [if_neg hblocks] at h
  obtain hread | ⟨freemap, hread⟩ := Option.eq_none_or_eq_some
    ((bitmapCreate (sfsFreemapBits super)).bind fun freemap =>
      sfsInitFreemap freemap (sfsFreemapBlocks super) disk)
  · rw [hread] at h
    cases h
  · rw [hread] at h
    obtain ⟨m, hcreate, hinit⟩ := Option.bind_eq_some_iff.1 hread
    dsimp only at h
    split at h
    case isFalse => cases h
    case isTrue =>
        cases h
        exact ⟨super, freemap, m, rfl, not_not.1 hsize, not_not.1 hmagic,
          Nat.not_lt.1 hblocks, hcreate, hinit, rfl⟩

/-- What `sfs_do_mount` gives. -/
theorem sfsDoMount_run (h : sfsDoMount dev disk = some (.ok fs)) :
    dev.dBlocksize = sfsBlksize
      ∧ (SfsSuper.ofBytes (disk sfsBlknSuper)).magic = sfsMagic
      ∧ fs.super.blocks ≤ dev.dBlocks
      ∧ fs.super = { SfsSuper.ofBytes (disk sfsBlknSuper) with
        info := Function.update (SfsSuper.ofBytes (disk sfsBlknSuper)).info
          (Fin.last sfsMaxInfoLen) 0 }
      ∧ sfsInitFreemap fs.freemap (sfsFreemapBlocks fs.super) disk
        = some fs.freemap
      ∧ fs.superDirty = false ∧ fs.disk = disk ∧ fs.inodes = fun _ => none := by
  obtain ⟨super, freemap, m, rfl, hsize, hmagic, hblocks, -, hinit, rfl⟩ :=
    sfsDoMount_cases h
  exact ⟨hsize, hmagic, hblocks, rfl, sfsInitFreemap_again hinit, rfl, rfl, rfl⟩

/-- A mounted volume agrees with its device. -/
theorem Agreed.mounted (hmount : sfsDoMount dev disk = some (.ok fs))
    (hinfo : (SfsSuper.ofBytes (disk sfsBlknSuper)).info
      (Fin.last sfsMaxInfoLen) = 0)
    (himage : Consistent ⟨fs, files⟩) : Agreed dev files fs := by
  obtain ⟨hsize, hmagic, hblocks, hsuper, hread, -, hdisk, hinodes⟩ :=
    sfsDoMount_run hmount
  have hsame : SfsSuper.ofBytes (disk sfsBlknSuper) = fs.super := by
    rw [hsuper, ← hinfo, Function.update_eq_self]
  refine ⟨himage.sound True, ⟨hsize, hsame ▸ hmagic, hblocks, hsame ▸ hinfo⟩,
    fun i node hnode => ?_, fun _ => ⟨?_, ?_⟩⟩
  · rw [hinodes] at hnode
    cases hnode
  · rw [hdisk]
    exact hsame
  · rw [hdisk]
    exact hread

/-- After `sfs_sync` the device mounts as the same volume. -/
theorem Agreed.remounts (h : Agreed dev v.files v.fs) : Remounts dev v := by
  intro inodeList fs' hlist hrun
  obtain ⟨h', hflushed, hdirty, hclean⟩ := sfsSync_spec h hlist hrun
  obtain ⟨fs'', hmount, hvolume⟩ := h'.mounts hdirty hclean
  refine ⟨fs'', hmount, ⟨hvolume.super.trans hflushed.super, fun hb => ?_,
    fun hi => (hvolume.inode hi).trans (hflushed.inode hi), fun hi pos =>
      (hvolume.target hi pos).trans (hflushed.target h.sound.inv hi pos)⟩⟩
  rw [hvolume.freemap (hflushed.super.symm ▸ hb)]
  show fs'.freemap.bit _ = _
  rw [hflushed.freemap]

/-- In every run without torn calls memory and disk agree, and after
`sfs_sync` the device mounts as the same volume. A torn call that returns
breaks the agreement. -/
theorem memory_agrees (hmount : sfsDoMount dev disk = some (.ok fs))
    (hinfo : (SfsSuper.ofBytes (disk sfsBlknSuper)).info
      (Fin.last sfsMaxInfoLen) = 0)
    (himage : Consistent ⟨fs, files⟩)
    (hrun : Run WholeStep ⟨fs, files⟩ ops v) :
    Agree v.fs ∧ Remounts dev v
      ∧ ∀ op v', FileStep v op v' → op.Torn v.fs → ¬ Agree v'.fs := by
  have h : Agreed dev v.files v.fs :=
    hrun.invariant (I := fun v => Agreed dev v.files v.fs)
      (fun h hstep => h.step hstep) (Agreed.mounted hmount hinfo himage)
  exact ⟨h.agree, h.remounts, fun op v' hstep htorn => h.torn hstep htorn⟩

-- ========================================================== an image

/-- A file of thirteen blocks, the last one in its indirect block. -/
def longInode : DiskInode where
  size := 13 * 4096
  type := sfsTypeFile
  nlinks := 1
  blocks := 13
  direct k := 4 + k
  indirect := 16

/-- The free map of a volume of twenty blocks with two free ones. -/
def longFreemap : Bitmap where
  nbits := 32768
  nwords := 1024
  map ix := if ix = 0 then 0xC0000#32 else 0#32

def longSuper : SfsSuper := { blocks := 20, unusedBlocks := 2 }

/-- The blocks of the volume: the file is inode 3. -/
def longDisk (d : Nat) : Nat → UInt8 :=
  if d = 0 then longSuper.toBytes
  else if d = 1 then (smallInode sfsTypeDir 1).toBytes
  else if d = 2 then longFreemap.data
  else if d = 3 then longInode.toBytes
  else if d = 16 then fun k => if k < 4 then wordByte 17 k else 0
  else fun _ => 0

def longFs : SfsFs where
  super := longSuper
  freemap := longFreemap
  superDirty := false
  disk := longDisk
  inodes _ := none

theorem longFs_bit {b : Nat} : longFreemap.bit b = true
    ↔ b ∈ ({18, 19} : Finset Nat) := by
  have hword : ∀ k < 32, (0xC0000#32).getLsbD k = true
      ↔ k ∈ ({18, 19} : Finset Nat) := by decide
  show (if b / 32 = 0 then 0xC0000#32 else 0#32).getLsbD (b % 32) = true ↔ _
  by_cases hb : b < 32
  · rw [if_pos (Nat.div_eq_of_lt hb), Nat.mod_eq_of_lt hb]
    exact hword b hb
  · rw [if_neg (by omega), BitVec.getLsbD_zero]
    simp only [Bool.false_eq_true, false_iff, Finset.mem_insert,
      Finset.mem_singleton]
    omega

theorem longFs_freeBits : freeBits longFs = {18, 19} := by
  have hbits : sfsFreemapBits longFs.super = 32768 := by decide
  ext b
  rw [mem_freeBits, show longFs.freemap = longFreemap from rfl, longFs_bit,
    hbits]
  simp only [Finset.mem_insert, Finset.mem_singleton]
  omega

theorem longFs_map : MapOk longFs := by
  refine ⟨by decide, by decide, by decide, fun hb => ?_, ?_⟩
  · rw [longFs_freeBits] at hb
    have hreserved : reservedBlocks longFs.super = 3 := by decide
    have hblocks : longFs.super.blocks = 20 := rfl
    rw [hreserved, hblocks]
    simp only [Finset.mem_insert, Finset.mem_singleton] at hb
    omega
  · rw [longFs_freeBits]
    decide

theorem longFs_root : inodeOf longFs 1 = smallInode sfsTypeDir 1 :=
  DiskInode.ofBytes_toBytes ⟨by decide, by decide, by decide, by decide,
    by decide, by decide⟩

theorem longFs_file : inodeOf longFs 3 = longInode :=
  DiskInode.ofBytes_toBytes ⟨by decide, by decide, by decide, by decide,
    by decide, by decide⟩

/-- The entries of the indirect block. -/
theorem longFs_entry (j : Nat) : entryAt longDisk 16 j
    = if j = 0 then 17 else 0 := by
  have hblock : longDisk 16 = fun k => if k < 4 then wordByte 17 k else 0 := rfl
  rw [entryAt, hblock]
  split
  case isTrue hj =>
      subst hj
      apply getWord_wordByte (by decide)
      intro k hk
      rw [Nat.zero_mul, Nat.zero_add, if_pos hk]
  case isFalse =>
      apply getWord_zero
      intro k _
      exact if_neg (by omega)

/-- Where a block of the volume is referred to. -/
def longOwner (b : Nat) : Nat × Pos :=
  if b = 1 then (1, .self)
  else if b = 3 then (3, .self)
  else if h : 4 ≤ b ∧ b < 16 then
    (3, .direct ⟨b - 4, by unfold sfsNdirect; omega⟩)
  else if b = 16 then (3, .indirect)
  else (3, .entry ⟨0, by decide⟩)

theorem longFs_refers {x : Nat × Pos} {b : Nat} :
    Refers ⟨longFs, {1, 3}⟩ x b
      ↔ (b = 1 ∨ 3 ≤ b ∧ b < 18) ∧ x = longOwner b := by
  constructor
  · rintro ⟨hin, ht, hb⟩
    obtain ⟨i, pos⟩ := x
    dsimp only at hin ht
    rw [Finset.mem_insert, Finset.mem_singleton] at hin
    rcases hin with rfl | rfl
    · cases pos with
      | self =>
          have heq : 1 = b := ht
          subst heq
          exact ⟨Or.inl rfl, rfl⟩
      | direct k =>
          have heq : (inodeOf longFs 1).direct k = b := ht
          rw [longFs_root] at heq
          exact absurd heq.symm hb
      | indirect =>
          have heq : (inodeOf longFs 1).indirect = b := ht
          rw [longFs_root] at heq
          exact absurd heq.symm hb
      | entry j =>
          rw [target_entry, longFs_root, if_pos (by rfl)] at ht
          exact absurd ht.symm hb
    · cases pos with
      | self =>
          have heq : 3 = b := ht
          subst heq
          exact ⟨by omega, rfl⟩
      | direct k =>
          have heq : (inodeOf longFs 3).direct k = b := ht
          rw [longFs_file] at heq
          have hk : 4 + k.val = b := heq
          have hlt := k.isLt
          unfold sfsNdirect at hlt
          refine ⟨by omega, ?_⟩
          rw [longOwner, if_neg (by omega), if_neg (by omega),
            dif_pos (by omega)]
          congr 2
          exact Fin.ext (by show k.val = b - 4; omega)
      | indirect =>
          have heq : (inodeOf longFs 3).indirect = b := ht
          rw [longFs_file] at heq
          have hb' : 16 = b := heq
          subst hb'
          exact ⟨by omega, rfl⟩
      | entry j =>
          rw [target_entry, longFs_file, if_neg (by decide)] at ht
          have heq : entryAt longDisk 16 j = b := ht
          rw [longFs_entry] at heq
          split at heq
          case isFalse => exact absurd heq.symm hb
          case isTrue hj =>
              subst heq
              refine ⟨by omega, ?_⟩
              show _ = (3, Pos.entry ⟨0, by decide⟩)
              congr 2
              exact Fin.ext hj
  · rintro ⟨hb, rfl⟩
    have hplace : b = 1 ∨ b = 3 ∨ (4 ≤ b ∧ b < 16) ∨ b = 16 ∨ b = 17 := by
      omega
    rcases hplace with rfl | rfl | hdirect | rfl | rfl
    · exact ⟨by decide, rfl, by decide⟩
    · exact ⟨by decide, rfl, by decide⟩
    · rw [longOwner, if_neg (by omega), if_neg (by omega), dif_pos hdirect]
      refine ⟨Finset.mem_insert_of_mem (Finset.mem_singleton_self 3), ?_,
        by omega⟩
      show (inodeOf longFs 3).direct _ = b
      rw [longFs_file]
      show 4 + (b - 4) = b
      omega
    · refine ⟨by decide, ?_, by decide⟩
      show (inodeOf longFs 3).indirect = 16
      rw [longFs_file]
      rfl
    · refine ⟨by decide, ?_, by decide⟩
      show target longFs 3 (.entry ⟨0, by decide⟩) = 17
      rw [target_entry, longFs_file, if_neg (by decide)]
      exact longFs_entry 0

theorem longFs_covered {i : Nat} (hi : i ∈ ({1, 3} : Finset Nat)) :
    CoveredBy longFs i (inodeOf longFs i).blocks := by
  rw [Finset.mem_insert, Finset.mem_singleton] at hi
  intro pos index hpos hle
  rcases hi with rfl | rfl
  · cases pos with
    | self => cases hpos
    | direct k =>
        show (inodeOf longFs 1).direct k = 0
        rw [longFs_root]
        rfl
    | indirect => cases hpos
    | entry j => rw [target_entry, longFs_root, if_pos (by rfl)]
  · rw [longFs_file] at hle
    have hle' : 13 ≤ index := hle
    cases pos with
    | self => cases hpos
    | direct k =>
        have hk : k.val = index := Option.some.inj hpos
        have hlt := k.isLt
        unfold sfsNdirect at hlt
        omega
    | indirect => cases hpos
    | entry j =>
        have hj : sfsNdirect + j.val = index := Option.some.inj hpos
        unfold sfsNdirect at hj
        rw [target_entry, longFs_file, if_neg (by decide)]
        exact (longFs_entry j).trans (if_neg (by omega))

theorem longFs_consistent : Consistent ⟨longFs, {1, 3}⟩ where
  nbits := longFs_map.nbits
  nwords := longFs_map.nwords
  blocks_lt := longFs_map.blocks_lt
  free_range := longFs_map.free_range
  unused_eq := longFs_map.unused_eq
  used_iff := by
    intro b hlo hlt
    have hreserved : reservedBlocks longFs.super = 3 := by decide
    have hblocks : longFs.super.blocks = 20 := rfl
    dsimp only at hlo hlt
    rw [hreserved] at hlo
    rw [hblocks] at hlt
    rw [Bool.eq_false_iff, ne_eq, show longFs.freemap = longFreemap from rfl,
      longFs_bit]
    simp only [Finset.mem_insert, Finset.mem_singleton]
    constructor
    · exact fun _ => ⟨longOwner b, longFs_refers.2 ⟨by omega, rfl⟩⟩
    · rintro ⟨x, hx⟩
      have hb := (longFs_refers.1 hx).1
      omega
  refers_once hx hy :=
    (longFs_refers.1 hx).2.trans (longFs_refers.1 hy).2.symm
  refers_range := by
    intro x b hx
    obtain ⟨hb, rfl⟩ := longFs_refers.1 hx
    have hreserved : reservedBlocks longFs.super = 3 := by decide
    have hblocks : longFs.super.blocks = 20 := rfl
    dsimp only
    rw [hreserved, hblocks]
    refine ⟨by omega, ?_⟩
    rcases hb with rfl | hb
    · exact Or.inr rfl
    · exact Or.inl hb.1
  files_pos := by
    intro i hi
    simp only [Finset.mem_insert, Finset.mem_singleton] at hi
    omega
  root := by decide
  root_dir := congrArg DiskInode.type longFs_root
  loaded := fun h => by cases h
  covered := longFs_covered

/-- A device of twenty blocks. -/
def longDevice : Device := { dBlocks := 20, dBlocksize := 4096 }

theorem longFs_onDisk : SuperOnDisk longFs := by
  have hwritten : ∀ m, m < sfsFreemapBlocks longFs.super → ∀ k,
      longDisk (sfsBlknFreemap + m) k
        = longFs.freemap.data (m * sfsBlksize + k) := by
    intro m hm k
    have hone : sfsFreemapBlocks longFs.super = 1 := by decide
    have hzero : m = 0 := by omega
    subst hzero
    rw [Nat.zero_mul, Nat.zero_add]
    rfl
  exact superOnDisk_written longFs_map rfl rfl hwritten

/-- The image mounts. -/
theorem longFs_mount : sfsDoMount longDevice longDisk = some (.ok longFs) := by
  have hread : longFreemap.read = longFreemap := by
    unfold Bitmap.read
    rw [longFreemap, Bitmap.mk.injEq]
    refine ⟨by decide, rfl, funext fun ix => ?_⟩
    dsimp only
    split
    case isTrue => rfl
    case isFalse hix =>
        rw [if_neg (by omega)]
        rfl
  have hmountable : Mountable longDevice longFs.super :=
    ⟨rfl, rfl, by decide, rfl⟩
  have hmount := longFs_onDisk.mounts longFs_map (by decide) hmountable
  rw [show longFs.freemap = longFreemap from rfl, hread] at hmount
  exact hmount

/-- The free blocks, and what memory and disk hold of the file. -/
def longView (fs : SfsFs) : Nat × Option (Bool × Nat) × Nat :=
  (fs.super.unusedBlocks,
    (fs.inodes 3).map fun node => (node.dirty, node.din.blocks),
    (DiskInode.ofBytes (fs.disk 3)).blocks)

theorem longFs_legal :
    (FileOp.loadInode 3).Legal ⟨longFs, {1, 3}⟩ :=
  Finset.mem_insert_of_mem (Finset.mem_singleton_self 3)

/-- Opening the file. -/
theorem longFs_load : ∃ fs, FileOp.exec longFs (.loadInode 3) = some fs
    ∧ longView fs = (2, some (false, 13), 13) := by
  have hload : (FileOp.exec longFs (.loadInode 3)).map longView
      = some (2, some (false, 13), 13) := by
    decide +kernel
  exact Option.map_eq_some_iff.1 hload

/-- The file grows by the two blocks that are free. -/
theorem memory_agrees_long : ∃ v,
    Run WholeStep ⟨longFs, {1, 3}⟩
      [.loadInode 3, .truncate 3 (15 * 4096)] v
    ∧ (inodeOf v.fs 3).blocks = 15 ∧ Agree v.fs ∧ Remounts longDevice v := by
  obtain ⟨fs₁, hload, hview⟩ := longFs_load
  have hgrow : (FileOp.exec fs₁ (.truncate 3 (15 * 4096))).map
      (fun fs => (inodeOf fs 3).blocks) = some 15 := by
    have hboth : ((FileOp.exec longFs (.loadInode 3)).bind fun fs =>
        (FileOp.exec fs (.truncate 3 (15 * 4096))).map
          fun fs => (inodeOf fs 3).blocks) = some 15 := by
      decide +kernel
    rwa [hload, Option.bind_some] at hboth
  obtain ⟨fs₂, htruncate, hblocks⟩ := Option.map_eq_some_iff.1 hgrow
  have hwhole : ¬ (FileOp.truncate 3 (15 * 4096)).Torn fs₁ := by
    rintro ⟨node, hnode, -, -, -, -, -, -, hlt⟩
    rw [longView, hnode, Option.map_some, Prod.mk.injEq, Prod.mk.injEq,
      Option.some.injEq, Prod.mk.injEq] at hview
    have hneed : roundupDiv (Int.toNat (15 * 4096)) sfsBlksize = 15 := by decide
    omega
  have hrun : Run WholeStep ⟨longFs, {1, 3}⟩
      [.loadInode 3, .truncate 3 (15 * 4096)] ⟨fs₂, {1, 3}⟩ :=
    .cons ⟨.call longFs_legal hload, id⟩
      (.single ⟨.call trivial htruncate, hwhole⟩)
  obtain ⟨hagree, hremounts, -⟩ :=
    memory_agrees longFs_mount rfl longFs_consistent hrun
  exact ⟨_, hrun, hblocks, hagree, hremounts⟩

/-- To grow it by three blocks fails after two, and the two are lost when
the volume is mounted again. -/
theorem torn_long : ∃ v,
    Run FileStep ⟨longFs, {1, 3}⟩
      [.loadInode 3, .truncate 3 (16 * 4096)] v
    ∧ ¬ Agree v.fs ∧ ¬ Remounts longDevice v := by
  obtain ⟨fs₁, hload, hview⟩ := longFs_load
  have hgrow : (FileOp.exec fs₁ (.truncate 3 (16 * 4096))).map longView
      = some (0, some (false, 15), 13) := by
    have hboth : ((FileOp.exec longFs (.loadInode 3)).bind fun fs =>
        (FileOp.exec fs (.truncate 3 (16 * 4096))).map longView)
        = some (0, some (false, 15), 13) := by
      decide +kernel
    rwa [hload, Option.bind_some] at hboth
  obtain ⟨fs₂, htruncate, hview₂⟩ := Option.map_eq_some_iff.1 hgrow
  have hsync : (sfsSync [3] fs₂).map (fun r =>
      (r.1.isOk, (DiskInode.ofBytes (r.2.disk 3)).blocks))
      = some (true, 13) := by
    have hall : ((FileOp.exec longFs (.loadInode 3)).bind fun fs =>
        (FileOp.exec fs (.truncate 3 (16 * 4096))).bind fun fs =>
          (sfsSync [3] fs).map fun r =>
            (r.1.isOk, (DiskInode.ofBytes (r.2.disk 3)).blocks))
        = some (true, 13) := by
      decide +kernel
    rwa [hload, Option.bind_some, htruncate, Option.bind_some] at hall
  obtain ⟨⟨r, fs₃⟩, hsynced, hout⟩ := Option.map_eq_some_iff.1 hsync
  obtain ⟨u₁, hrun₁⟩ : ∃ u, sfsLoadInode 3 longFs = some (u, fs₁) := by
    obtain ⟨⟨u, _⟩, hrun, rfl⟩ := Option.map_eq_some_iff.1
      (show (sfsLoadInode 3 longFs).map Prod.snd = some fs₁ from hload)
    exact ⟨u, hrun⟩
  obtain ⟨r₂, hrun₂⟩ : ∃ r,
      vopTruncate 3 (16 * 4096) fs₁ = some (r, fs₂) := by
    obtain ⟨⟨r, _⟩, hrun, rfl⟩ := Option.map_eq_some_iff.1
      (show (vopTruncate 3 (16 * 4096) fs₁).map Prod.snd = some fs₂
        from htruncate)
    exact ⟨r, hrun⟩
  obtain ⟨hsound₁, hwrites₁⟩ :=
    sfsLoadInode_spec (longFs_consistent.sound True) longFs_legal hrun₁
  obtain ⟨-, hframe₂, -⟩ := vopTruncate_spec hsound₁ hrun₂
  unfold longView at hview₂
  rw [Prod.mk.injEq, Prod.mk.injEq] at hview₂
  obtain ⟨-, hmemory, hdisk⟩ := hview₂
  obtain ⟨node, hnode, hfields⟩ := Option.map_eq_some_iff.1 hmemory
  rw [Prod.mk.injEq] at hfields
  obtain ⟨hclean, hblocks⟩ := hfields
  refine ⟨_, .cons (.call longFs_legal hload) (.single (.call trivial
    htruncate)), fun hagree => ?_, fun hremounts => ?_⟩
  · have hdin := hagree.inode 3 node hnode hclean
    have hsame := congrArg DiskInode.blocks hdin
    rw [hblocks] at hsame
    exact absurd (hsame.trans hdisk) (by decide)
  · rw [Prod.mk.injEq] at hout
    cases r with
    | error e => cases hout.1
    | ok u =>
        have hlist : InodeList fs₂ [3] := by
          intro i
          rw [List.mem_singleton]
          by_cases hi : i = 3
          · subst hi
            exact ⟨fun _ => by rw [hnode]; rintro ⟨⟩, fun _ => rfl⟩
          · have hnone : longFs.inodes i = none := rfl
            rw [← hwrites₁.others hi, ← hframe₂.others hi] at hnone
            exact ⟨fun heq => absurd heq hi, fun hne => absurd hnone hne⟩
        obtain ⟨fs', hmount, hvolume⟩ := hremounts [3] fs₃ hlist hsynced
        obtain ⟨-, -, -, -, -, -, hdevice, hempty⟩ := sfsDoMount_run hmount
        have hinode := hvolume.inode longFs_legal
        dsimp only at hinode
        rw [inodeOf_unloaded (by rw [hempty]), hdevice,
          inodeOf_loaded hnode] at hinode
        have hsame := congrArg DiskInode.blocks hinode
        rw [hout.2, hblocks] at hsame
        cases hsame

end Ucore.Sfs
