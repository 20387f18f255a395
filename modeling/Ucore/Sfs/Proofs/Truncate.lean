/-
`sfs_truncfile` over runs of file operations.

It returns for the lengths that `Resizable` allows, in every state a run
reaches. A call that stops for lack of free blocks leaves the file as it was
just where it got none; while every call spares the files (`SparingStep`)
each regular file has the blocks for its size, and no assertion of a later
`sfs_truncfile` fails.
-/
import Ucore.Sfs.Proofs.Size

namespace Ucore.Sfs

open Call (Returns)

variable {fs fs' : SfsFs} {files : Finset Nat} {i b : Nat} {node : SfsInode}
  {dev : Device} {disk : Nat → Nat → UInt8} {v v' v₀ : Volume} {op : FileOp}
  {ops : List FileOp} {strict : Prop}

-- =========================================================== seeking

theorem vopTruncate_eq {len : Int} (hnode : fs.inodes i = some node)
    (hfile : node.din.type = sfsTypeFile) :
    vopTruncate i len fs = sfsTruncfile i len fs := by
  unfold vopTruncate
  rw [Call.bind_of_eq _ (getSin_eq hnode)]
  have hassert : Call.assert (node.din.type = sfsTypeFile) fs
      = some ((), fs) := Call.assert_eq_some.2 ⟨hfile, rfl⟩
  exact Call.bind_of_eq _ hassert

/-- `sfs_tryseek` with a position that it accepts. -/
theorem sfsTryseek_returns {pos : Int} (h : Sound strict files fs)
    (hnode : fs.inodes i = some node) (hfile : node.din.type = sfsTypeFile)
    (hlo : 0 ≤ pos) (hhi : pos < sfsMaxFileSize) :
    Returns (sfsTryseek i pos) fs
      ↔ (node.din.size < pos → Resizable fs i pos.toNat) := by
  unfold sfsTryseek
  rw [if_neg (by omega), Returns.bind_iff (getSin_eq hnode)]
  split
  case isTrue hsize =>
      unfold Returns
      rw [vopTruncate_eq hnode hfile]
      rw [← sfsTruncfile_returns h hnode hlo (Int.le_of_lt hhi)]
      exact ⟨fun hret _ => hret, fun himp => himp hsize⟩
  case isFalse hsize =>
      exact ⟨fun _ hlt => absurd hlt hsize, fun _ => Returns.pure⟩

/-- Over every run: `sfs_truncfile` and `sfs_tryseek` return for the lengths
and positions they accept just where the file can be resized. -/
theorem size_changes_return (himage : Consistent v₀)
    (hrun : Run FileStep v₀ ops v) (hnode : v.fs.inodes i = some node)
    (hfile : node.din.type = sfsTypeFile) (len : Int) (hlo : 0 ≤ len) :
    (len ≤ sfsMaxFileSize → (Returns (sfsTruncfile i len) v.fs
        ↔ Resizable v.fs i len.toNat))
      ∧ (len < sfsMaxFileSize → (Returns (sfsTryseek i len) v.fs
        ↔ (node.din.size < len → Resizable v.fs i len.toNat))) := by
  have h := (himage.sound False).fileRun hrun
  exact ⟨sfsTruncfile_returns h hnode hlo, sfsTryseek_returns h hnode hfile hlo⟩

/-- The file of `longFs` is opened. -/
theorem longFs_opened : ∃ v node,
    Run FileStep ⟨longFs, {1, 3}⟩ [.loadInode 3] v
      ∧ v.fs.inodes 3 = some node ∧ node.din = longInode
      ∧ FileOp.exec longFs (.loadInode 3) = some v.fs := by
  obtain ⟨fs, hload, hview⟩ := longFs_load
  unfold longView at hview
  rw [Prod.mk.injEq, Prod.mk.injEq] at hview
  obtain ⟨node, hnode, -⟩ := Option.map_eq_some_iff.1 hview.2.1
  refine ⟨⟨fs, {1, 3}⟩, node, .single (.call longFs_legal hload), hnode, ?_,
    hload⟩
  obtain ⟨⟨u, _⟩, hrun, rfl⟩ := Option.map_eq_some_iff.1
    (show (sfsLoadInode 3 longFs).map Prod.snd = some fs from hload)
  rw [← inodeOf_loaded hnode, sfsLoadInode_inode hrun, longFs_file]

theorem size_changes_return_long : ∃ v,
    Run FileStep ⟨longFs, {1, 3}⟩ [.loadInode 3] v
      ∧ (Returns (sfsTruncfile 3 (15 * 4096)) v.fs
        ↔ Resizable v.fs 3 (15 * 4096))
      ∧ Returns (sfsTryseek 3 4096) v.fs := by
  obtain ⟨v, node, hrun, hnode, hdin, -⟩ := longFs_opened
  have hfile : node.din.type = sfsTypeFile := by
    rw [hdin]
    rfl
  have hgrow := size_changes_return longFs_consistent hrun hnode hfile
    (15 * 4096) (by decide)
  have hseek := size_changes_return longFs_consistent hrun hnode hfile
    4096 (by decide)
  refine ⟨v, hrun, hgrow.1 (by decide), (hseek.2 (by decide)).2 ?_⟩
  rw [hdin]
  intro hlt
  exact absurd hlt (by decide)

/-- The free map of a volume of 2048 blocks with its first four in use. -/
def wideFreemap : Bitmap where
  nbits := 32768
  nwords := 1024
  map ix :=
    if ix = 0 then 0xFFFFFFF0#32 else if ix < 64 then BitVec.allOnes 32 else 0#32

def wideVolume : Volume :=
  plainVolume 1 { blocks := 2048, unusedBlocks := 2044 } wideFreemap

theorem wideFreemap_bit : wideFreemap.bit b = true ↔ 4 ≤ b ∧ b < 2048 := by
  have hword : ∀ k < 32, (0xFFFFFFF0#32).getLsbD k = true ↔ 4 ≤ k := by decide
  show (if b / 32 = 0 then 0xFFFFFFF0#32
    else if b / 32 < 64 then BitVec.allOnes 32 else 0#32).getLsbD (b % 32)
      = true ↔ _
  by_cases hlow : b < 32
  · rw [if_pos (Nat.div_eq_of_lt hlow), Nat.mod_eq_of_lt hlow, hword b hlow]
    omega
  · rw [if_neg (by omega)]
    by_cases hhigh : b < 2048
    · have hmod : b % 32 < 32 := Nat.mod_lt b (by decide)
      rw [if_pos (by omega), BitVec.getLsbD_allOnes, decide_eq_true hmod]
      simp only [true_iff]
      omega
    · rw [if_neg (by omega), BitVec.getLsbD_zero]
      simp only [Bool.false_eq_true, false_iff]
      omega

theorem wideVolume_consistent : Consistent wideVolume :=
  plainVolume_consistent 1 ⟨by decide, by decide, by decide, by decide,
    fun _ => wideFreemap_bit, by decide⟩ (by decide)

theorem growthCost_le (fs : SfsFs) (i b hi : Nat) :
    growthCost fs i b hi ≤ hi - b + 1 := by
  have hcard := Finset.card_filter_le (Finset.Ico b hi)
    fun k => blockAt fs i k = 0
  rw [Nat.card_Ico] at hcard
  unfold growthCost
  apply Nat.add_le_add hcard
  split
  case isTrue => exact Nat.le_refl 1
  case isFalse => exact Nat.zero_le 1

/-- One byte more than the map of a file holds is accepted and panics. So is
the length that the file has after its growth stopped halfway. -/
theorem size_changes_panic :
    (Consistent wideVolume ∧ ¬ Returns (sfsTruncfile 3 (1036 * 4096 + 1))
        wideVolume.fs)
      ∧ ∃ v, Run FileStep ⟨longFs, {1, 3}⟩
          [.loadInode 3, .truncate 3 (16 * 4096)] v
        ∧ (inodeOf v.fs 3).size = 13 * 4096
        ∧ ¬ Returns (sfsTruncfile 3 (13 * 4096)) v.fs := by
  refine ⟨⟨wideVolume_consistent, ?_⟩, ?_⟩
  · have h := wideVolume_consistent.sound False
    have hnode : wideVolume.fs.inodes 3 = some
        { din := smallInode sfsTypeFile 1, dirty := true, reclaimCount := 1,
          refCount := 1 } := rfl
    rw [sfsTruncfile_returns h hnode (by decide) (by decide)]
    have hsize : (inodeOf wideVolume.fs 3).size = 0 := rfl
    have hblocks : (inodeOf wideVolume.fs 3).blocks = 0 := rfl
    have hunused : wideVolume.fs.super.unusedBlocks = 2044 := rfl
    have hneed : roundupDiv (Int.toNat (1036 * 4096 + 1)) sfsBlksize = 1037 := by
      decide
    have hmax : maxBlocks = 1036 := by decide
    have hcost := growthCost_le wideVolume.fs 3 0 1036
    unfold Resizable CanHold
    rw [hsize, if_neg (by decide), hneed]
    dsimp only
    rw [hblocks, hmax, hunused]
    omega
  · obtain ⟨fs₁, hload, -⟩ := longFs_load
    have hgrow : (FileOp.exec fs₁ (.truncate 3 (16 * 4096))).map (fun fs =>
        ((inodeOf fs 3).size, (sfsTruncfile 3 (13 * 4096) fs).isSome))
        = some (13 * 4096, false) := by
      have hboth : ((FileOp.exec longFs (.loadInode 3)).bind fun fs =>
          (FileOp.exec fs (.truncate 3 (16 * 4096))).map fun fs =>
            ((inodeOf fs 3).size, (sfsTruncfile 3 (13 * 4096) fs).isSome))
          = some (13 * 4096, false) := by
        decide +kernel
      rwa [hload, Option.bind_some] at hboth
    obtain ⟨fs₂, htruncate, hview⟩ := Option.map_eq_some_iff.1 hgrow
    rw [Prod.mk.injEq] at hview
    refine ⟨⟨fs₂, {1, 3}⟩, .cons (.call longFs_legal hload)
      (.single (.call trivial htruncate)), hview.1, ?_⟩
    rw [Call.returns_iff_isSome, hview.2]
    rintro ⟨⟩

-- ============================================= files that are spared

theorem fileOp_filesAfter_subset (op : FileOp) (fs' : SfsFs) :
    op.filesAfter v fs' ⊆ v.files := by
  cases op with
  | refDec sin =>
      by_cases hgone : (fs'.inodes sin).isNone ∧ (inodeOf v.fs sin).nlinks = 0
      · rw [FileOp.filesAfter, if_pos hgone]
        exact Finset.erase_subset sin v.files
      · rw [FileOp.filesAfter, if_neg hgone]
  | _ => exact Finset.Subset.refl _

/-- Past its blocks a file has none, so each costs one. -/
theorem le_growthCost (hi : Nat) (h : Sound True files fs)
    (hnode : fs.inodes i = some node) :
    hi - node.din.blocks ≤ growthCost fs i node.din.blocks hi := by
  have hall : (Finset.Ico node.din.blocks hi).filter
      (fun k => blockAt fs i k = 0) = Finset.Ico node.din.blocks hi := by
    apply Finset.filter_true_of_mem
    intro k hk
    rw [Finset.mem_Ico] at hk
    by_cases hlt : k < maxBlocks
    · obtain ⟨pos, hpos⟩ := exists_pos hlt
      rw [blockAt_eq_target hpos]
      exact h.covered_loaded hnode (Or.inl trivial) hpos hk.1
    · exact blockAt_past (Nat.not_lt.1 hlt)
  unfold growthCost
  rw [hall, Nat.card_Ico]
  exact Nat.le_add_right _ _

/-- A torn call stops halfway. -/
theorem Torn.stops {len : Int} (htorn : Torn fs i len)
    (h : Sound True files fs) : StopsHalfway fs i len := by
  obtain ⟨node, hnode, -, ⟨hlow, hind⟩, hfree, -, -, -, hfull⟩ := htorn
  have hcost := le_growthCost (roundupDiv len.toNat sfsBlksize) h hnode
  unfold StopsHalfway NoneToTake
  rw [inodeOf_loaded hnode]
  dsimp only
  rw [growthCost_one, inodeOf_loaded hnode]
  have hone : ¬ (sfsNdirect ≤ node.din.blocks ∧ node.din.indirect = 0) :=
    fun hboth => hind hboth.2
  rw [if_neg hone]
  refine ⟨?_, by omega, by omega⟩
  split
  case isTrue => omega
  case isFalse => omega

theorem SparingStep.whole (h : SparingStep v op v')
    (hsound : Sound True v.files v.fs) : WholeStep v op v' := by
  obtain ⟨hstep, hspares⟩ := h
  refine ⟨hstep, ?_⟩
  cases op with
  | truncate sin len => exact fun htorn => hspares (htorn.stops hsound)
  | tryseek sin pos =>
      rintro ⟨hlt, hsize, htorn⟩
      exact hspares hlt hsize (htorn.stops hsound)
  | _ => exact id

/-- `sfs_io_nolock` sets the size just where it stretches the file. -/
theorem vopIo_run {r : Except Err Nat} {offset : Int} {alen : Nat}
    {write : Bool} (hrun : vopIo i offset alen write fs = some (r, fs')) :
    ∃ node, fs.inodes i = some node ∧ node.din.type = sfsTypeFile
      ∧ (¬ Stretches fs i offset alen write ∧ fs' = fs
        ∨ Stretches fs i offset alen write ∧ fs' = withNode fs i { node with
          din := { node.din with size := offset.toNat }, dirty := true }) := by
  unfold vopIo sfsIoNolock at hrun
  simp only [Call.bind_eq_some, Call.assert_eq_some] at hrun
  obtain ⟨node, _, hget, _, _, ⟨hfile, rfl⟩, node₁, _, hget₁, _, _, ⟨-, rfl⟩,
    hrun⟩ := hrun
  obtain ⟨hnode, hsame⟩ := getSin_run hget
  obtain ⟨hnode₁, hsame₁⟩ := getSin_run hget₁
  rw [hsame, hnode] at hnode₁
  cases hnode₁
  rw [hsame₁, hsame] at hrun
  refine ⟨node, hnode, hfile, ?_⟩
  unfold Stretches
  rw [inodeOf_loaded hnode]
  split at hrun
  case isTrue hbad =>
      rw [Call.pure_eq_some] at hrun
      refine Or.inl ⟨fun hstretches => ?_, hrun.2⟩
      obtain ⟨-, hsize, hmax, hend⟩ := hstretches
      omega
  case isFalse hvalid =>
      split at hrun
      case isTrue hempty =>
          rw [Call.pure_eq_some] at hrun
          refine Or.inl ⟨fun hstretches => ?_, hrun.2⟩
          obtain ⟨-, -, -, hend⟩ := hstretches
          omega
      case isFalse hmove =>
          split at hrun
          case isTrue hread =>
              rw [Call.pure_eq_some] at hrun
              refine Or.inl ⟨fun hstretches => ?_, hrun.2⟩
              rw [hread.1] at hstretches
              cases hstretches.1
          case isFalse hread =>
              split at hrun
              case isFalse hinside =>
                  rw [Call.pure_eq_some] at hrun
                  exact Or.inl ⟨fun hstretches => hinside hstretches.2.1,
                    hrun.2⟩
              case isTrue hsize =>
                  simp only [Call.bind_eq_some, Call.pure_eq_some] at hrun
                  obtain ⟨_, _, hset, -, rfl⟩ := hrun
                  have hwrite : write = true := by
                    by_contra hfalse
                    exact hread ⟨Bool.eq_false_iff.2 hfalse, by omega⟩
                  exact Or.inr ⟨⟨hwrite, hsize, by omega, by omega⟩,
                    setSin_run hset⟩

/-- A size that takes no more blocks. -/
theorem Spared.io {r : Except Err Nat} {offset : Int} {alen : Nat}
    {write : Bool} (hspares : Stretches fs i offset alen write →
      roundupDiv offset.toNat sfsBlksize
        = roundupDiv (inodeOf fs i).size sfsBlksize)
    (hrun : vopIo i offset alen write fs = some (r, fs')) :
    Spared fs fs' i := by
  obtain ⟨node, hnode, -, ⟨-, rfl⟩ | ⟨hstretches, rfl⟩⟩ := vopIo_run hrun
  · exact Spared.of_eq rfl
  · have hdin := inodeOf_loaded hnode
    refine ⟨?_, fun hagrees => ?_⟩
    · rw [inodeOf_loaded withNode_self, hdin]
    · have hsame := hspares hstretches
      unfold SizeAgrees at hagrees ⊢
      rw [inodeOf_loaded withNode_self]
      rw [hdin] at hagrees hsame
      exact hagrees.trans hsame.symm

/-- A call that spares the files spares each. -/
theorem SparingStep.spared (hstep : SparingStep v op v')
    (h : Agreed dev v.files v.fs) (hi : i ∈ v'.files) :
    Spared v.fs v'.fs i := by
  obtain ⟨hcall, hspares⟩ := hstep
  -- an inode the call is not on is as it was
  have hother : ∀ {sin : Nat} {fs' : SfsFs}, i ∈ v.files →
      Writes True v.files sin v.fs fs' → (i = sin → Spared v.fs fs' i) →
      Spared v.fs fs' i := by
    intro sin fs' hin hwrites hself
    by_cases heq : i = sin
    · exact hself heq
    · exact Spared.of_eq (inodeOf_other hwrites.others hwrites.quiet hin heq)
  cases hcall with
  | call hlegal hexec =>
      cases op with
      | loadInode ino =>
          obtain ⟨⟨_, _⟩, hrun, rfl⟩ := Option.map_eq_some_iff.mp hexec
          exact Spared.of_eq (sfsLoadInode_inode hrun i)
      | refInc sin =>
          obtain ⟨⟨_, _⟩, hrun, rfl⟩ := Option.map_eq_some_iff.mp hexec
          exact Spared.of_eq (inodeRefInc_inode hrun i)
      | refDec sin =>
          have hin := fileOp_filesAfter_subset _ _ hi
          obtain ⟨⟨_, _⟩, hrun, rfl⟩ := Option.map_eq_some_iff.mp hexec
          obtain ⟨hwrites, node, hnode, -⟩ :=
            inodeRefDec_spec h.sound (fun _ => h.agree.inode sin) hrun
          refine hother hin hwrites fun heq => ?_
          subst heq
          have hdin := inodeOf_loaded hnode
          rcases inodeRefDec_kept hnode (h.sound.inv.loaded hnode).2.1
            (h.agree.inode i) hrun with ⟨hlinks, hnone⟩ | ⟨hsame, -⟩
          · -- the inode is gone, so it is none of those after the call
            exfalso
            rw [← hdin] at hlinks
            have hgone : i ∈ v.files.erase i := by
              have hafter := hi
              simpa [FileOp.filesAfter, hnone, hlinks] using hafter
            exact Finset.notMem_erase i v.files hgone
          · exact Spared.of_eq (hsame.trans hdin.symm)
      | direntRead sin slot =>
          obtain ⟨⟨_, _⟩, hrun, rfl⟩ := Option.map_eq_some_iff.mp hexec
          obtain rfl := sfsDirentReadNolock_run hrun
          exact Spared.of_eq rfl
      | io sin offset alen write =>
          obtain ⟨⟨_, _⟩, hrun, rfl⟩ := Option.map_eq_some_iff.mp hexec
          have hio := hrun
          unfold vopIo at hio
          simp only [Call.bind_eq_some, Call.assert_eq_some] at hio
          obtain ⟨_, _, hget, _, _, ⟨-, rfl⟩, hio⟩ := hio
          obtain ⟨-, hsame⟩ := getSin_run hget
          rw [hsame] at hio
          refine hother hi (sfsIoNolock_spec h.sound hio).2 fun heq => ?_
          subst heq
          exact Spared.io hspares hrun
      | tryseek sin pos =>
          obtain ⟨⟨_, fs'⟩, hrun, rfl⟩ := Option.map_eq_some_iff.mp hexec
          show Spared v.fs fs' i
          rcases vopTryseek_run hrun with ⟨-, rfl⟩ | ⟨hlt, hsize, hrun⟩
          · exact Spared.of_eq rfl
          · obtain ⟨-, hframe, -⟩ := vopTruncate_spec h.sound hrun
            by_cases heq : i = sin
            · subst heq
              exact Spared.truncate h.sound (hspares hlt hsize) hrun
            · exact Spared.of_eq (inodeOf_other hframe.others
                (hframe.quiet.mono (Finset.erase_subset sin _)) hi heq)
      | truncate sin len =>
          obtain ⟨⟨_, _⟩, hrun, rfl⟩ := Option.map_eq_some_iff.mp hexec
          obtain ⟨-, hframe, -⟩ := vopTruncate_spec h.sound hrun
          by_cases heq : i = sin
          · subst heq
            exact Spared.truncate h.sound hspares hrun
          · exact Spared.of_eq (inodeOf_other hframe.others
              (hframe.quiet.mono (Finset.erase_subset sin _)) hi heq)
      | fsync sin =>
          obtain ⟨⟨_, _⟩, hrun, rfl⟩ := Option.map_eq_some_iff.mp hexec
          obtain ⟨hflushed, -⟩ := sfsFsync_flushed h.sound hrun
          exact Spared.of_eq (hflushed.inode hi)
      | sync inodeList =>
          obtain ⟨⟨_, _⟩, hrun, rfl⟩ := Option.map_eq_some_iff.mp hexec
          obtain ⟨-, hflushed, -⟩ := sfsSync_spec h hlegal hrun
          exact Spared.of_eq (hflushed.inode hi)

/-- What holds while every call spares the files. -/
structure Sized (dev : Device) (v : Volume) : Prop where
  agreed : Agreed dev v.files v.fs
  sizes : SizesAgree v

theorem Sized.step (h : Sized dev v) (hstep : SparingStep v op v') :
    Sized dev v' := by
  refine ⟨h.agreed.step (hstep.whole h.agreed.sound), fun i hi hfile => ?_⟩
  have hspared := hstep.spared h.agreed hi
  have hin : i ∈ v.files := by
    cases hstep.1 with
    | call hlegal hexec => exact fileOp_filesAfter_subset op _ hi
  exact hspared.size (h.sizes i hin (hspared.type.symm.trans hfile))

theorem Sized.run (h : Sized dev v) (hrun : Run SparingStep v ops v') :
    Sized dev v' :=
  hrun.invariant (I := Sized dev) (fun h hstep => h.step hstep) h

-- =========================================== growth that got nothing

/-- A file that cannot be grown so far is grown until its map is full. -/
theorem overruns_of_not_canHold {len : Int} (h : Sound strict files fs)
    (hnode : fs.inodes i = some node)
    (hno : ¬ CanHold fs i (roundupDiv len.toNat sfsBlksize)) :
    Overruns fs i len := by
  unfold CanHold at hno
  unfold Overruns
  rw [inodeOf_loaded hnode] at hno ⊢
  dsimp only at hno ⊢
  refine ⟨by omega, ?_⟩
  have hret : Returns
      (growFile i (maxBlocks - node.din.blocks) node.din.blocks) fs :=
    (growFile_returns h hnode).2 (by omega)
  obtain ⟨r, fs₁, hgrow⟩ := hret
  obtain ⟨_, -, -, -, ⟨rfl, -⟩ | ⟨-, hpos, hfew, -⟩⟩ :=
    growFile_outcome h hnode hgrow
  · exact ⟨fs₁, hgrow⟩
  · have hsum : node.din.blocks + (maxBlocks - node.din.blocks) = maxBlocks := by
      omega
    rw [hsum] at hfew
    omega

/-- Where a file has the blocks for its size `sfs_truncfile` returns, or the
map of the file is full. -/
theorem SizeAgrees.truncfile {len : Int} (h : Sound strict files fs)
    (hnode : fs.inodes i = some node) (hagrees : SizeAgrees (inodeOf fs i)) :
    Returns (sfsTruncfile i len) fs ∨ Overruns fs i len := by
  by_cases hlen : len < 0 ∨ sfsMaxFileSize < len
  · unfold sfsTruncfile
    rw [if_pos hlen]
    exact Or.inl Returns.pure
  · rw [sfsTruncfile_returns h hnode (by omega) (by omega)]
    unfold Resizable
    split
    case isTrue => exact Or.inl hagrees
    case isFalse =>
        by_cases hhold : CanHold fs i (roundupDiv len.toNat sfsBlksize)
        · exact Or.inl hhold
        · exact Or.inr (overruns_of_not_canHold h hnode hhold)

/-- A regular file stays one. -/
theorem Sized.file (h : Sized dev v) (hrun : Run SparingStep v ops v')
    (hfile : i ∈ v.files → (inodeOf v.fs i).type = sfsTypeFile) :
    i ∈ v'.files → (inodeOf v'.fs i).type = sfsTypeFile := by
  have hboth : Sized dev v' ∧ (i ∈ v'.files →
      (inodeOf v'.fs i).type = sfsTypeFile) := by
    refine hrun.invariant (I := fun v => Sized dev v ∧ (i ∈ v.files →
      (inodeOf v.fs i).type = sfsTypeFile)) (fun {v op v'} hI hstep => ?_)
      ⟨h, hfile⟩
    refine ⟨hI.1.step hstep, fun hi => ?_⟩
    have hspared := hstep.spared hI.1.agreed hi
    rw [hspared.type]
    cases hstep.1 with
    | call hlegal hexec => exact hI.2 (fileOp_filesAfter_subset op _ hi)
  exact hboth.2

/-- A `sfs_truncfile` that fails for lack of free blocks leaves the file and
the free map as they were, with no assertion of a later call to fail, just
where it got no block. -/
theorem failed_truncate (hmount : sfsDoMount dev disk = some (.ok fs))
    (hinfo : (SfsSuper.ofBytes (disk sfsBlknSuper)).info
      (Fin.last sfsMaxInfoLen) = 0)
    (himage : Consistent ⟨fs, files⟩) (hsizes : SizesAgree ⟨fs, files⟩)
    (hrun : Run SparingStep ⟨fs, files⟩ ops v)
    (hnode : v.fs.inodes i = some node) (hfile : node.din.type = sfsTypeFile)
    {len : Int} (hfail : sfsTruncfile i len v.fs = some (.error .noMem, fs')) :
    (Restored v.fs fs' i ∧ ∀ ops' v' node',
        Run SparingStep ⟨fs', v.files⟩ ops' v' →
        v'.fs.inodes i = some node' → ∀ len',
        Returns (sfsTruncfile i len') v'.fs ∨ Overruns v'.fs i len')
      ↔ NoneToTake v.fs i := by
  have h : Sized dev v :=
    Sized.run ⟨Agreed.mounted hmount hinfo himage, hsizes⟩ hrun
  have hsound := h.agreed.sound
  obtain ⟨node₁, hnode₁, htype, hout⟩ :=
    sfsTruncfile_outcome hsound hnode hfail
  have hleft : NoneToTake v.fs i ∧ Restored v.fs fs' i
      ∨ ¬ NoneToTake v.fs i ∧ node.din.blocks < node₁.din.blocks := by
    rcases hout with ⟨heq, -⟩ | ⟨heq, -⟩ | ⟨-, -, -, -, hleft⟩
    · cases heq
    · cases heq
    · exact hleft
  constructor
  · rintro ⟨hrestored, -⟩
    rcases hleft with ⟨hnone, -⟩ | ⟨-, hmore⟩
    · exact hnone
    · have hblocks := hrestored.blocks
      rw [inodeOf_loaded hnode₁, inodeOf_loaded hnode] at hblocks
      omega
  · intro hnone
    rcases hleft with ⟨-, hrestored⟩ | ⟨hfirst, -⟩
    · refine ⟨hrestored, fun ops' v' node' hlater hnode' len' => ?_⟩
      -- the failed call is one that spares the files
      have hstep : SparingStep v (.truncate i len) ⟨fs', v.files⟩ := by
        refine ⟨.call trivial ?_, fun hstops => hstops.1 hnone⟩
        show (vopTruncate i len v.fs).map Prod.snd = some fs'
        rw [vopTruncate_eq hnode hfile, hfail]
        rfl
      have h₁ : Sized dev ⟨fs', v.files⟩ := h.step hstep
      have h' : Sized dev v' := h₁.run hlater
      have hin := (h'.agreed.sound.inv.loaded hnode').1
      have hfile' := h₁.file hlater fun _ => by
        show (inodeOf fs' i).type = _
        rw [inodeOf_loaded hnode₁, htype]
        exact hfile
      exact SizeAgrees.truncfile h'.agreed.sound hnode'
        (h'.sizes i hin (hfile' hin))
    · exact absurd hnone hfirst

/-- The call fails for lack of free blocks. -/
def failsNoMem (fs : SfsFs) (i : Nat) (len : Int) : Bool :=
  match sfsTruncfile i len fs with
  | some (.error .noMem, _) => true
  | _ => false

theorem failsNoMem_iff {len : Int} : failsNoMem fs i len = true
    ↔ ∃ fs', sfsTruncfile i len fs = some (.error .noMem, fs') := by
  unfold failsNoMem
  split
  case h_1 fs' heq => exact ⟨fun _ => ⟨fs', heq⟩, fun _ => rfl⟩
  case h_2 hno =>
      refine ⟨(fun h => by cases h), fun h => ?_⟩
      obtain ⟨fs', heq⟩ := h
      exact absurd heq (hno fs')

theorem longFs_sizes : SizesAgree ⟨longFs, {1, 3}⟩ := by
  intro i hi hfile
  have hor : i = 1 ∨ i = 3 := by
    simpa using hi
  dsimp only at hfile ⊢
  rcases hor with rfl | rfl
  · rw [longFs_root] at hfile
    cases hfile
  · rw [longFs_file]
    show 13 = roundupDiv (13 * 4096) sfsBlksize
    decide

/-- The file takes the two free blocks; to grow it further fails and leaves
everything as it is. -/
theorem failed_truncate_long : ∃ v fs',
    Run SparingStep ⟨longFs, {1, 3}⟩
      [.loadInode 3, .truncate 3 (15 * 4096)] v
      ∧ sfsTruncfile 3 (16 * 4096) v.fs = some (.error .noMem, fs')
      ∧ Restored v.fs fs' 3
      ∧ (Returns (sfsTruncfile 3 (15 * 4096)) fs'
        ∨ Overruns fs' 3 (15 * 4096)) := by
  obtain ⟨fs₁, hload, hview⟩ := longFs_load
  have hgrow : (FileOp.exec fs₁ (.truncate 3 (15 * 4096))).map (fun fs =>
      (decide (fs₁.super.unusedBlocks
          < growthCost fs₁ 3 (inodeOf fs₁ 3).blocks 15),
        failsNoMem fs 3 (16 * 4096),
        decide ((inodeOf fs 3).type = sfsTypeFile),
        decide (fs.super.unusedBlocks < growthCost fs 3 (inodeOf fs 3).blocks
          ((inodeOf fs 3).blocks + 1)), (fs.inodes 3).isSome))
      = some (false, true, true, true, true) := by
    have hboth : ((FileOp.exec longFs (.loadInode 3)).bind fun fs₁ =>
        (FileOp.exec fs₁ (.truncate 3 (15 * 4096))).map fun fs =>
          (decide (fs₁.super.unusedBlocks
              < growthCost fs₁ 3 (inodeOf fs₁ 3).blocks 15),
            failsNoMem fs 3 (16 * 4096),
            decide ((inodeOf fs 3).type = sfsTypeFile),
            decide (fs.super.unusedBlocks
              < growthCost fs 3 (inodeOf fs 3).blocks
                ((inodeOf fs 3).blocks + 1)), (fs.inodes 3).isSome))
        = some (false, true, true, true, true) := by
      decide +kernel
    rwa [hload, Option.bind_some] at hboth
  obtain ⟨fs₂, htruncate, hout⟩ := Option.map_eq_some_iff.1 hgrow
  simp only [Prod.mk.injEq, decide_eq_false_iff_not, decide_eq_true_eq,
    Option.isSome_iff_exists] at hout
  obtain ⟨henough, hfails, hfile, hnone, node, hnode⟩ := hout
  obtain ⟨fs', hfail⟩ := failsNoMem_iff.1 hfails
  rw [inodeOf_loaded hnode] at hfile
  have hspares : ¬ StopsHalfway fs₁ 3 (15 * 4096) := by
    have hneed : roundupDiv (Int.toNat (15 * 4096)) sfsBlksize = 15 := by decide
    intro hstops
    have hfew := hstops.2.2
    rw [hneed] at hfew
    exact henough hfew
  have hrun : Run SparingStep ⟨longFs, {1, 3}⟩
      [.loadInode 3, .truncate 3 (15 * 4096)] ⟨fs₂, {1, 3}⟩ :=
    .cons ⟨.call longFs_legal hload, trivial⟩
      (.single ⟨.call trivial htruncate, hspares⟩)
  obtain ⟨hrestored, hlater⟩ := (failed_truncate longFs_mount rfl
    longFs_consistent longFs_sizes hrun hnode hfile hfail).2 hnone
  refine ⟨⟨fs₂, {1, 3}⟩, fs', hrun, hfail, hrestored, ?_⟩
  have hsound := (longFs_consistent.sound False).fileRun
    (hrun.mono fun hstep => hstep.1)
  obtain ⟨node', hnode', -⟩ := sfsTruncfile_outcome hsound hnode hfail
  exact hlater [] ⟨fs', {1, 3}⟩ node' (.nil _) hnode' _

/-- To grow the file by three blocks fails and leaves it two of them. Then
it has too many for its length, and the assertion fails. -/
theorem failed_truncate_halfway : ∃ v fs',
    Run SparingStep ⟨longFs, {1, 3}⟩ [.loadInode 3] v
      ∧ sfsTruncfile 3 (16 * 4096) v.fs = some (.error .noMem, fs')
      ∧ (inodeOf v.fs 3).blocks = 13 ∧ (inodeOf fs' 3).blocks = 15
      ∧ v.fs.super.unusedBlocks = 2 ∧ fs'.super.unusedBlocks = 0
      ∧ (inodeOf fs' 3).size = 13 * 4096
      ∧ ¬ Returns (sfsTruncfile 3 (13 * 4096)) fs' := by
  obtain ⟨fs₁, hload, hview⟩ := longFs_load
  have hgrow : ((sfsTruncfile 3 (16 * 4096) fs₁).map fun r =>
      (failsNoMem fs₁ 3 (16 * 4096),
        [(inodeOf fs₁ 3).blocks, (inodeOf r.2 3).blocks,
          fs₁.super.unusedBlocks, r.2.super.unusedBlocks,
          (inodeOf r.2 3).size],
        (sfsTruncfile 3 (13 * 4096) r.2).isSome))
      = some (true, [13, 15, 2, 0, 13 * 4096], false) := by
    have hboth : ((FileOp.exec longFs (.loadInode 3)).bind fun fs₁ =>
        (sfsTruncfile 3 (16 * 4096) fs₁).map fun r =>
          (failsNoMem fs₁ 3 (16 * 4096),
            [(inodeOf fs₁ 3).blocks, (inodeOf r.2 3).blocks,
              fs₁.super.unusedBlocks, r.2.super.unusedBlocks,
              (inodeOf r.2 3).size],
            (sfsTruncfile 3 (13 * 4096) r.2).isSome))
        = some (true, [13, 15, 2, 0, 13 * 4096], false) := by
      decide +kernel
    rwa [hload, Option.bind_some] at hboth
  obtain ⟨⟨r, fs₂⟩, htruncate, hout⟩ := Option.map_eq_some_iff.1 hgrow
  simp only [Prod.mk.injEq, List.cons.injEq] at hout
  obtain ⟨hfails, ⟨hblocks, hblocks', hunused, hunused', hsize, -⟩, hpanic⟩ :=
    hout
  obtain ⟨fs', hfail⟩ := failsNoMem_iff.1 hfails
  rw [htruncate] at hfail
  cases hfail
  refine ⟨⟨fs₁, {1, 3}⟩, fs₂, .single ⟨.call longFs_legal hload, trivial⟩,
    htruncate, hblocks, hblocks', hunused, hunused', hsize, ?_⟩
  rw [Call.returns_iff_isSome, hpanic]
  rintro ⟨⟩

end Ucore.Sfs
