/-
Changing the size of a file: when `sfs_truncfile` and `sfs_tryseek` return,
and what they leave.

To remove blocks always returns. To add them returns while the map has place
for them, or where the free blocks run out before the map is full
(`CanHold`). With the length as it is the block count is asserted to be that
of the size.
-/
import Ucore.Sfs.Proofs.Agree
import Ucore.Sfs.Proofs.Growth
import Ucore.Sfs.Proofs.Refs

namespace Ucore.Sfs

open Call (Returns)

variable {fs fs' fs₁ : SfsFs} {files held : Finset Nat} {i index : Nat}
  {node : SfsInode} {strict : Prop} {v v' v₀ : Volume} {ops : List FileOp}

-- ========================================================= shrinking

theorem sfsBmapFreeSubNolock_returns (h : Inv held ⟨fs, files⟩)
    (hnode : fs.inodes i = some node) (hind : node.din.indirect ≠ 0)
    (hindex : index < sfsBlkNentry) :
    Returns (sfsBmapFreeSubNolock node.din.indirect index) fs := by
  obtain ⟨hoffset, hlen⟩ := entry_range hindex
  have hused := h.used_indirect hnode hind
  have hinuse := sfsBlockInuse_eq h.map hused.range.1 hused.range.2
  rw [hused.2.1] at hinuse
  unfold sfsBmapFreeSubNolock
  apply (Returns.bind_iff hinuse).2
  apply Returns.assert ⟨rfl, hindex⟩
  refine Returns.bind (sfsRbuf_returns hused hoffset hlen)
    fun buf fs₁ hread => ?_
  obtain ⟨rfl, hword⟩ := sfsRbuf_entry hread
  dsimp only
  rw [hword]
  split
  case isFalse => exact Returns.pure
  case isTrue hne =>
      refine Returns.bind (sfsWbuf_returns hused hoffset hlen)
        fun _ fs₂ hwrite => ?_
      obtain rfl := sfsWbuf_entry hwrite
      have hentry : Used (withEntry fs₁ node.din.indirect index 0)
          (entryAt fs₁.disk node.din.indirect index) :=
        h.used_entry hnode hind hindex hne
      have hmap : MapOk (withEntry fs₁ node.din.indirect index 0) :=
        ⟨h.map.nbits, h.map.nwords, h.map.blocks_lt, h.map.free_range,
          h.map.unused_eq⟩
      exact sfsBlockFree_returns hentry hmap

theorem sfsBmapFreeNolock_returns (h : Inv held ⟨fs, files⟩)
    (hnode : fs.inodes i = some node) :
    Returns (sfsBmapFreeNolock i index) fs := by
  unfold sfsBmapFreeNolock
  apply (Returns.bind_iff (getSin_eq hnode)).2
  dsimp only
  split
  case isTrue hlt =>
      split
      case isTrue hne =>
          have hused := h.used_direct hnode hne
          refine Returns.bind (sfsBlockFree_returns hused h.map)
            fun _ _ _ => ?_
          exact ⟨_, _, rfl⟩
      case isFalse => exact Returns.pure
  case isFalse =>
      split
      case isTrue hboth =>
          exact sfsBmapFreeSubNolock_returns h hnode hboth.2 hboth.1
      case isFalse => exact Returns.pure

/-- Removing a block leaves what else is in the inode. -/
theorem sfsBmapFreeNolock_node {u : Unit} (hnode : fs.inodes i = some node)
    (hrun : sfsBmapFreeNolock i index fs = some (u, fs')) :
    ∃ node', fs'.inodes i = some node' ∧ node'.din.size = node.din.size
      ∧ node'.din.type = node.din.type ∧ node'.din.blocks = node.din.blocks
      ∧ node'.din.indirect = node.din.indirect := by
  unfold sfsBmapFreeNolock at hrun
  rw [Call.bind_eq_some] at hrun
  obtain ⟨n, fs₁, hget, hrun⟩ := hrun
  obtain ⟨hn, hsame⟩ := getSin_run hget
  rw [hnode] at hn
  cases hn
  rw [hsame] at hrun
  dsimp only at hrun
  split at hrun
  case isTrue hlt =>
      split at hrun
      case isTrue =>
          rw [Call.bind_eq_some] at hrun
          obtain ⟨_, fs₂, -, hset⟩ := hrun
          obtain rfl := setSin_run hset
          exact ⟨_, withNode_self, rfl, rfl, rfl, rfl⟩
      case isFalse =>
          rw [Call.pure_eq_some] at hrun
          obtain ⟨-, rfl⟩ := hrun
          exact ⟨node, hnode, rfl, rfl, rfl, rfl⟩
  case isFalse =>
      split at hrun
      case isFalse =>
          rw [Call.pure_eq_some] at hrun
          obtain ⟨-, rfl⟩ := hrun
          exact ⟨node, hnode, rfl, rfl, rfl, rfl⟩
      case isTrue =>
          suffices hinodes : fs'.inodes = fs.inodes by
            exact ⟨node, (congrFun hinodes i).trans hnode, rfl, rfl, rfl, rfl⟩
          unfold sfsBmapFreeSubNolock at hrun
          simp only [Call.bind_eq_some, Call.assert_eq_some] at hrun
          obtain ⟨_, fs₁, hinuse, _, _, ⟨-, rfl⟩, buf, fs₂, hread, hrun⟩ :=
            hrun
          obtain ⟨hsame₁, -⟩ := sfsBlockInuse_run hinuse
          obtain ⟨hsame₂, -⟩ := sfsRbuf_entry hread
          split at hrun
          case isTrue =>
              rw [Call.bind_eq_some] at hrun
              obtain ⟨_, fs₃, hwrite, hfree⟩ := hrun
              obtain rfl := sfsWbuf_entry hwrite
              obtain ⟨freemap, -, rfl⟩ := sfsBlockFree_run hfree
              rw [hsame₂, hsame₁]
              rfl
          case isFalse =>
              rw [Call.pure_eq_some] at hrun
              rw [hrun.2, hsame₂, hsame₁]

/-- What removing blocks leaves of the inode. -/
structure Shrunk (n : Nat) (node node' : SfsInode) : Prop where
  size : node'.din.size = node.din.size
  type : node'.din.type = node.din.type
  blocks : node'.din.blocks = node.din.blocks - n

theorem sfsBmapTruncateNolock_shrunk {u : Unit}
    (hnode : fs.inodes i = some node)
    (hrun : sfsBmapTruncateNolock i fs = some (u, fs')) :
    ∃ node', fs'.inodes i = some node' ∧ Shrunk 1 node node' := by
  unfold sfsBmapTruncateNolock at hrun
  simp only [Call.bind_eq_some, Call.assert_eq_some] at hrun
  obtain ⟨n, _, hget, _, _, ⟨-, rfl⟩, _, fs₁, hfree, node₁, fs₂, hget₁,
    hset⟩ := hrun
  obtain ⟨hn, hsame⟩ := getSin_run hget
  rw [hnode] at hn
  cases hn
  rw [hsame] at hfree
  obtain ⟨n₁, hn₁, hsize, htype, hblocks, -⟩ :=
    sfsBmapFreeNolock_node hnode hfree
  obtain ⟨hnode₁, -⟩ := getSin_run hget₁
  rw [hn₁] at hnode₁
  cases hnode₁
  obtain rfl := setSin_run hset
  exact ⟨_, withNode_self, hsize, htype, congrArg (· - 1) hblocks⟩

theorem sfsBmapTruncateNolock_returns (h : Sound strict files fs)
    (hnode : fs.inodes i = some node) (hne : node.din.blocks ≠ 0) :
    Returns (sfsBmapTruncateNolock i) fs := by
  unfold sfsBmapTruncateNolock
  apply (Returns.bind_iff (getSin_eq hnode)).2
  apply Returns.assert hne
  refine Returns.bind (sfsBmapFreeNolock_returns h.inv hnode)
    fun _ fs₁ hfree => ?_
  obtain ⟨node₁, hnode₁, -⟩ := sfsBmapFreeNolock_node hnode hfree
  apply (Returns.bind_iff (getSin_eq hnode₁)).2
  exact ⟨_, _, rfl⟩

theorem shrinkFile_returns : ∀ {n : Nat} {fs : SfsFs} {node : SfsInode},
    Sound strict files fs → fs.inodes i = some node → n ≤ node.din.blocks →
    Returns (shrinkFile i n) fs := by
  intro n
  induction n with
  | zero => exact fun _ _ _ => Returns.pure
  | succ n ih =>
      intro fs node h hnode hle
      rw [shrinkFile]
      have hne : node.din.blocks ≠ 0 := by omega
      refine Returns.bind (sfsBmapTruncateNolock_returns h hnode hne)
        fun _ fs₁ hrun => ?_
      obtain ⟨hsound, -⟩ := sfsBmapTruncateNolock_spec h hrun
      obtain ⟨node₁, hnode₁, hshrunk⟩ :=
        sfsBmapTruncateNolock_shrunk hnode hrun
      have hblocks := hshrunk.blocks
      exact ih hsound hnode₁ (by omega)

theorem shrinkFile_shrunk {u : Unit} :
    ∀ {n : Nat} {fs : SfsFs} {node : SfsInode},
    fs.inodes i = some node → shrinkFile i n fs = some (u, fs') →
    ∃ node', fs'.inodes i = some node' ∧ Shrunk n node node' := by
  intro n
  induction n with
  | zero =>
      intro fs node hnode hrun
      rw [shrinkFile, Call.pure_eq_some] at hrun
      obtain ⟨-, rfl⟩ := hrun
      exact ⟨node, hnode, rfl, rfl, rfl⟩
  | succ n ih =>
      intro fs node hnode hrun
      rw [shrinkFile, Call.bind_eq_some] at hrun
      obtain ⟨_, fs₁, htruncate, hrun⟩ := hrun
      obtain ⟨node₁, hnode₁, h₁⟩ := sfsBmapTruncateNolock_shrunk hnode htruncate
      obtain ⟨node', hnode', h'⟩ := ih hnode₁ hrun
      refine ⟨node', hnode', h'.size.trans h₁.size, h'.type.trans h₁.type, ?_⟩
      have hblocks₁ := h₁.blocks
      have hblocks' := h'.blocks
      omega

-- ======================================================== truncating

/-- The two loops of `sfs_truncfile` return. -/
theorem resizeFile_returns {tblks : Nat} (h : Sound strict files fs)
    (hnode : fs.inodes i = some node) :
    Returns (resizeFile i node.din.blocks tblks) fs ↔ CanHold fs i tblks := by
  unfold CanHold resizeFile
  rw [inodeOf_loaded hnode]
  dsimp only
  split
  case isTrue hlt =>
      have hsum : node.din.blocks + (tblks - node.din.blocks) = tblks := by
        omega
      rw [growFile_returns h hnode, hsum]
      omega
  case isFalse hge =>
      constructor
      · exact fun _ => Or.inl (Nat.not_lt.1 hge)
      · intro _
        refine Returns.bind (shrinkFile_returns h hnode (Nat.sub_le _ _))
          fun _ _ _ => Returns.pure

/-- What the two loops leave of the inode. -/
theorem resizeFile_outcome {r : Except Err Unit} {tblks : Nat}
    (h : Sound strict files fs) (hnode : fs.inodes i = some node)
    (hrun : resizeFile i node.din.blocks tblks fs = some (r, fs')) :
    ∃ node', fs'.inodes i = some node' ∧ node'.din.size = node.din.size
      ∧ node'.din.type = node.din.type
      ∧ (r = .ok () ∧ node'.din.blocks = tblks
        ∨ r.isOk = false ∧ node.din.blocks < tblks
          ∧ fs.super.unusedBlocks < growthCost fs i node.din.blocks tblks
          ∧ (NoneToTake fs i ∧ Restored fs fs' i
            ∨ ¬ NoneToTake fs i ∧ node.din.blocks < node'.din.blocks)) := by
  unfold resizeFile at hrun
  split at hrun
  case isTrue hlt =>
      have hsum : node.din.blocks + (tblks - node.din.blocks) = tblks := by
        omega
      obtain ⟨node', hnode', hsize, htype, hout⟩ := growFile_outcome h hnode hrun
      rw [hsum] at hout
      refine ⟨node', hnode', hsize, htype, ?_⟩
      rcases hout with ⟨hok, hblocks, -⟩ | ⟨herror, -, hfew, hleft⟩
      · exact Or.inl ⟨hok, hblocks⟩
      · exact Or.inr ⟨herror, hlt, hfew, hleft⟩
  case isFalse hge =>
      simp only [Call.bind_eq_some, Call.pure_eq_some] at hrun
      obtain ⟨_, fs₁, hshrink, hok, rfl⟩ := hrun
      obtain ⟨node', hnode', hshrunk⟩ := shrinkFile_shrunk hnode hshrink
      have hblocks := hshrunk.blocks
      exact ⟨node', hnode', hshrunk.size, hshrunk.type,
        Or.inl ⟨hok, by omega⟩⟩

/-- `sfs_truncfile` with a length that it accepts. -/
theorem sfsTruncfile_returns {len : Int} (h : Sound strict files fs)
    (hnode : fs.inodes i = some node) (hlo : 0 ≤ len)
    (hhi : len ≤ sfsMaxFileSize) :
    Returns (sfsTruncfile i len) fs ↔ Resizable fs i len.toNat := by
  unfold sfsTruncfile Resizable
  rw [if_neg (by omega)]
  rw [Returns.bind_iff (getSin_eq hnode), inodeOf_loaded hnode]
  dsimp only
  split
  case isTrue hsize =>
      rw [Returns.assert_iff]
      unfold SizeAgrees
      rw [hsize]
      exact ⟨fun hboth => hboth.1.symm, fun heq => ⟨heq.symm, Returns.pure⟩⟩
  case isFalse =>
      constructor
      · exact fun hret => (resizeFile_returns h hnode).1 hret.of_bind
      · intro hhold
        refine Returns.bind ((resizeFile_returns h hnode).2 hhold)
          fun r fs₁ hrun => ?_
        obtain ⟨node', hnode', -, -, hout⟩ := resizeFile_outcome h hnode hrun
        rcases hout with ⟨rfl, hblocks⟩ | ⟨herror, -⟩
        · dsimp only
          apply (Returns.bind_iff (getSin_eq hnode')).2
          apply Returns.assert hblocks
          exact Returns.modify Returns.pure
        · cases r with
          | ok _ => cases herror
          | error e => exact Returns.pure

/-- What `sfs_truncfile` leaves of the inode: the new size and the blocks for
it, or the size it had. -/
theorem sfsTruncfile_outcome {r : Except Err Unit} {len : Int}
    (h : Sound strict files fs) (hnode : fs.inodes i = some node)
    (hrun : sfsTruncfile i len fs = some (r, fs')) :
    ∃ node', fs'.inodes i = some node' ∧ node'.din.type = node.din.type
      ∧ (r = .ok () ∧ node'.din.size = len.toNat
          ∧ node'.din.blocks = roundupDiv len.toNat sfsBlksize
        ∨ r = .error .inval ∧ fs' = fs ∧ (len < 0 ∨ sfsMaxFileSize < len)
        ∨ r.isOk = false ∧ node'.din.size = node.din.size
          ∧ node.din.blocks < roundupDiv len.toNat sfsBlksize
          ∧ fs.super.unusedBlocks < growthCost fs i node.din.blocks
            (roundupDiv len.toNat sfsBlksize)
          ∧ (NoneToTake fs i ∧ Restored fs fs' i
            ∨ ¬ NoneToTake fs i ∧ node.din.blocks < node'.din.blocks)) := by
  unfold sfsTruncfile at hrun
  split at hrun
  case isTrue hlen =>
      rw [Call.pure_eq_some] at hrun
      obtain ⟨rfl, rfl⟩ := hrun
      exact ⟨node, hnode, rfl, Or.inr (Or.inl ⟨rfl, rfl, hlen⟩)⟩
  case isFalse hlen =>
      rw [Call.bind_eq_some] at hrun
      obtain ⟨n, _, hget, hrun⟩ := hrun
      obtain ⟨hn, hsame⟩ := getSin_run hget
      rw [hnode] at hn
      cases hn
      rw [hsame] at hrun
      dsimp only at hrun
      split at hrun
      case isTrue hsize =>
          simp only [Call.bind_eq_some, Call.assert_eq_some,
            Call.pure_eq_some] at hrun
          obtain ⟨_, _, ⟨hblocks, rfl⟩, rfl, rfl⟩ := hrun
          exact ⟨node, hnode, rfl, Or.inl ⟨rfl, hsize, hblocks.symm⟩⟩
      case isFalse =>
          rw [Call.bind_eq_some] at hrun
          obtain ⟨o, fs₁, hresize, hrun⟩ := hrun
          obtain ⟨node₁, hnode₁, hsize, htype, hout⟩ :=
            resizeFile_outcome h hnode hresize
          rcases hout with ⟨rfl, hblocks⟩ | ⟨herror, hlt, hfew, hleft⟩
          · simp only [Call.bind_eq_some, Call.assert_eq_some,
              Call.pure_eq_some] at hrun
            obtain ⟨n₁, fs₂, hget₁, _, _, ⟨-, hsame₃⟩, _, _, hset, rfl,
              rfl⟩ := hrun
            obtain ⟨hn₁, rfl⟩ := getSin_run hget₁
            rw [hnode₁] at hn₁
            cases hn₁
            rw [hsame₃] at hset
            obtain rfl := setSin_run hset
            exact ⟨_, withNode_self, htype, Or.inl ⟨rfl, rfl, hblocks⟩⟩
          · cases o with
            | ok _ => cases herror
            | error e =>
                dsimp only at hrun
                rw [Call.pure_eq_some] at hrun
                obtain ⟨rfl, rfl⟩ := hrun
                exact ⟨node₁, hnode₁, htype,
                  Or.inr (Or.inr ⟨rfl, hsize, hlt, hfew, hleft⟩)⟩

/-- The inode is of the type it was, and has the blocks for its size if it
had them. -/
structure Spared (fs fs' : SfsFs) (i : Nat) : Prop where
  type : (inodeOf fs' i).type = (inodeOf fs i).type
  size : SizeAgrees (inodeOf fs i) → SizeAgrees (inodeOf fs' i)

theorem Spared.of_eq (h : inodeOf fs' i = inodeOf fs i) : Spared fs fs' i := by
  refine ⟨congrArg DiskInode.type h, fun hagrees => ?_⟩
  rw [h]
  exact hagrees

/-- `vop_truncate` spares the file where it does not stop halfway. -/
theorem Spared.truncate {r : Except Err Unit} {len : Int}
    (h : Sound strict files fs) (hspares : ¬ StopsHalfway fs i len)
    (hrun : vopTruncate i len fs = some (r, fs')) : Spared fs fs' i := by
  unfold vopTruncate at hrun
  simp only [Call.bind_eq_some, Call.assert_eq_some] at hrun
  obtain ⟨node, _, hget, _, _, ⟨-, rfl⟩, hrun⟩ := hrun
  obtain ⟨hnode, hsame⟩ := getSin_run hget
  rw [hsame] at hrun
  obtain ⟨node', hnode', htype, hout⟩ := sfsTruncfile_outcome h hnode hrun
  refine ⟨?_, fun hagrees => ?_⟩
  · rw [inodeOf_loaded hnode', inodeOf_loaded hnode]
    exact htype
  · rcases hout with ⟨-, hsize, hblocks⟩ | ⟨-, rfl, -⟩
      | ⟨-, hsize, hlt, hfew, hleft⟩
    · rw [inodeOf_loaded hnode']
      unfold SizeAgrees
      rw [hsize]
      exact hblocks
    · exact hagrees
    · rcases hleft with ⟨-, hrestored⟩ | ⟨hfirst, -⟩
      · unfold SizeAgrees at hagrees ⊢
        rw [hrestored.blocks, hrestored.size]
        exact hagrees
      · have hdin := inodeOf_loaded hnode
        exact absurd ⟨hfirst, hdin ▸ hlt, hdin ▸ hfew⟩ hspares

-- ============================================================== runs

/-- The loop of `sfs_sync`. -/
theorem fsyncAll_sound {u : Unit} : ∀ {l : List Nat} {fs : SfsFs},
    Sound strict files fs → fsyncAll l fs = some (u, fs') →
    Sound strict files fs' := by
  intro l
  induction l with
  | nil =>
      intro fs h hrun
      rw [fsyncAll, Call.pure_eq_some] at hrun
      obtain ⟨-, rfl⟩ := hrun
      exact h
  | cons sin l ih =>
      intro fs h hrun
      rw [fsyncAll, Call.bind_eq_some] at hrun
      obtain ⟨_, fs₁, hsync, hrun⟩ := hrun
      exact ih (sfsFsync_spec h hsync).1 hrun

theorem sfsSync_sound {r : Except Err Unit} {inodeList : List Nat}
    (h : Sound strict files fs)
    (hrun : sfsSync inodeList fs = some (r, fs')) :
    Sound strict files fs' := by
  unfold sfsSync at hrun
  rw [Call.bind_eq_some] at hrun
  obtain ⟨_, fs₁, hinodes, hrun⟩ := hrun
  rw [Call.bind_eq_some] at hrun
  obtain ⟨s, t, hget, hrun⟩ := hrun
  obtain ⟨hs, ht⟩ := Call.get_eq_some.1 hget
  rw [hs, ht] at hrun
  have h₁ := fsyncAll_sound h hinodes
  split at hrun
  case isFalse =>
      rw [Call.pure_eq_some] at hrun
      obtain ⟨-, rfl⟩ := hrun
      exact h₁
  case isTrue =>
      simp only [Call.bind_eq_some, Call.modify_eq_some, Call.pure_eq_some]
        at hrun
      obtain ⟨_, fs₂, hmark, _, fs₃, hsuper, _, fs₄, hblocks, -, rfl⟩ := hrun
      obtain ⟨disk, hsame, -, -, hkept⟩ := syncSuper_run hsuper hblocks
      subst hmark
      have hwritten : Sound strict files fs' ∧ Flushed files fs₁ fs' := by
        subst hsame
        exact h₁.writeReserved rfl rfl rfl hkept
      exact hwritten.1

/-- A call keeps the accounting. -/
theorem Sound.fileStep {op : FileOp} (h : Sound False v.files v.fs)
    (hstep : FileStep v op v') : Sound False v'.files v'.fs := by
  cases hstep with
  | call hlegal hexec =>
      cases op with
      | loadInode ino =>
          obtain ⟨⟨_, _⟩, hrun, rfl⟩ := Option.map_eq_some_iff.mp hexec
          exact (sfsLoadInode_spec h hlegal hrun).1
      | refInc sin =>
          obtain ⟨⟨_, _⟩, hrun, rfl⟩ := Option.map_eq_some_iff.mp hexec
          exact (inodeRefInc_spec h hrun).1
      | refDec sin =>
          -- the inodes after the call are those `filesAfter` says
          have hstep : Step v (.refDec sin) _ := .call (fun _ h => by cases h) hexec
          exact h.step hstep
      | direntRead sin slot =>
          obtain ⟨⟨_, _⟩, hrun, rfl⟩ := Option.map_eq_some_iff.mp hexec
          obtain rfl := sfsDirentReadNolock_run hrun
          exact h
      | io sin offset alen write =>
          obtain ⟨⟨_, _⟩, hrun, rfl⟩ := Option.map_eq_some_iff.mp hexec
          unfold vopIo at hrun
          simp only [Call.bind_eq_some, Call.assert_eq_some] at hrun
          obtain ⟨_, _, hget, _, _, ⟨-, rfl⟩, hrun⟩ := hrun
          obtain ⟨-, hsame⟩ := getSin_run hget
          rw [hsame] at hrun
          exact (sfsIoNolock_spec h hrun).1
      | tryseek sin pos =>
          obtain ⟨⟨_, fs'⟩, hrun, rfl⟩ := Option.map_eq_some_iff.mp hexec
          show Sound False v.files fs'
          rcases vopTryseek_run hrun with ⟨-, rfl⟩ | ⟨-, -, hrun⟩
          · exact h
          · exact (vopTruncate_spec h hrun).1
      | truncate sin len =>
          obtain ⟨⟨_, _⟩, hrun, rfl⟩ := Option.map_eq_some_iff.mp hexec
          exact (vopTruncate_spec h hrun).1
      | fsync sin =>
          obtain ⟨⟨_, _⟩, hrun, rfl⟩ := Option.map_eq_some_iff.mp hexec
          exact (sfsFsync_spec h hrun).1
      | sync inodeList =>
          obtain ⟨⟨_, _⟩, hrun, rfl⟩ := Option.map_eq_some_iff.mp hexec
          exact sfsSync_sound h hrun

theorem Sound.fileRun (h : Sound False v.files v.fs)
    (hrun : Run FileStep v ops v') : Sound False v'.files v'.fs :=
  hrun.invariant (I := fun v => Sound False v.files v.fs)
    (fun h hstep => h.fileStep hstep) h

end Ucore.Sfs
