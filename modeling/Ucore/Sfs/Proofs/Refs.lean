/-
Taking and dropping references to inodes changes no inode: one that is loaded
is that on disk, and one that leaves memory was written back, if what is not
marked dirty is on disk. Only an inode without links and references is gone.
-/
import Ucore.Sfs.Proofs.Sync

namespace Ucore.Sfs

variable {fs fs' : SfsFs} {files : Finset Nat} {i : Nat} {node : SfsInode}
  {strict : Prop}

/-- A store to an inode in memory that keeps what it holds. -/
theorem inodeOf_withNode_same {node' : SfsInode}
    (hnode : fs.inodes i = some node) (hdin : node'.din = node.din) (i' : Nat) :
    inodeOf (withNode fs i node') i' = inodeOf fs i' := by
  rw [inodeOf_withNode]
  split
  case isTrue heq => rw [heq, inodeOf_loaded hnode, hdin]
  case isFalse => rfl

theorem inodeRefInc_inode {refs : Int}
    (hrun : inodeRefInc i fs = some (refs, fs')) (i' : Nat) :
    inodeOf fs' i' = inodeOf fs i' := by
  unfold inodeRefInc at hrun
  simp only [Call.bind_eq_some, Call.pure_eq_some] at hrun
  obtain ⟨node, _, hget, _, _, hset, -, rfl⟩ := hrun
  obtain ⟨hnode, rfl⟩ := getSin_run hget
  obtain rfl := setSin_run hset
  have hdin : (SfsInode.din { node with refCount := node.refCount + 1 })
      = node.din := rfl
  exact inodeOf_withNode_same hnode hdin i'

theorem lookupSfsNolock_inode {found : Bool}
    (hrun : lookupSfsNolock i fs = some (found, fs')) (i' : Nat) :
    inodeOf fs' i' = inodeOf fs i' ∧ (found = false →
      fs' = fs ∧ fs.inodes i = none) := by
  unfold lookupSfsNolock at hrun
  rw [Call.bind_eq_some] at hrun
  obtain ⟨s, t, hget, hrun⟩ := hrun
  obtain ⟨hs, ht⟩ := Call.get_eq_some.1 hget
  rw [hs, ht] at hrun
  cases hnode : fs.inodes i with
  | none =>
      rw [hnode] at hrun
      dsimp only at hrun
      rw [Call.pure_eq_some] at hrun
      obtain ⟨-, rfl⟩ := hrun
      exact ⟨rfl, fun _ => ⟨rfl, rfl⟩⟩
  | some node =>
      rw [hnode] at hrun
      dsimp only at hrun
      rw [Call.bind_eq_some] at hrun
      obtain ⟨refs, fs₁, hinc, hrun⟩ := hrun
      have hkept := inodeRefInc_inode hinc i'
      split at hrun
      case isFalse =>
          rw [Call.pure_eq_some] at hrun
          obtain ⟨rfl, rfl⟩ := hrun
          exact ⟨hkept, fun h => by cases h⟩
      case isTrue =>
          simp only [Call.bind_eq_some, Call.pure_eq_some] at hrun
          obtain ⟨node₁, fs₂, hget₁, _, _, hset, rfl, rfl⟩ := hrun
          obtain ⟨hnode₁, rfl⟩ := getSin_run hget₁
          obtain rfl := setSin_run hset
          have hdin : (SfsInode.din
              { node₁ with reclaimCount := node₁.reclaimCount + 1 })
              = node₁.din := rfl
          have hstored := inodeOf_withNode_same hnode₁ hdin i'
          exact ⟨hstored.trans hkept, fun h => by cases h⟩

theorem sfsLoadInode_inode {u : Unit}
    (hrun : sfsLoadInode i fs = some (u, fs')) (i' : Nat) :
    inodeOf fs' i' = inodeOf fs i' := by
  unfold sfsLoadInode at hrun
  rw [Call.bind_eq_some] at hrun
  obtain ⟨found, fs₁, hlookup, hrun⟩ := hrun
  obtain ⟨hkept, hmissing⟩ := lookupSfsNolock_inode hlookup i'
  split at hrun
  case isTrue =>
      rw [Call.pure_eq_some] at hrun
      obtain ⟨-, rfl⟩ := hrun
      exact hkept
  case isFalse hfound =>
      obtain ⟨hsame₁, hnone⟩ := hmissing (Bool.eq_false_iff.2 hfound)
      unfold sfsCreateInode at hrun
      simp only [Call.bind_eq_some, Call.assert_eq_some] at hrun
      obtain ⟨_, fs₂, hinuse, _, _, ⟨-, rfl⟩, buf, fs₃, hread, _, _,
        ⟨-, rfl⟩, _, _, ⟨-, hsame₄⟩, hset⟩ := hrun
      obtain ⟨hsame₂, -⟩ := sfsBlockInuse_run hinuse
      obtain ⟨hsame₃, hbuf⟩ := sfsRbuf_run hread
      have hset' := setSin_run hset
      rw [hsame₂] at hsame₃ hbuf
      rw [hsame₄, hsame₃, hsame₁] at hset'
      rw [hsame₁] at hbuf
      rw [hset', inodeOf_withNode]
      split
      case isFalse => rfl
      case isTrue heq =>
          rw [heq, inodeOf_unloaded hnone, hbuf]
          exact DiskInode.ofBytes_congr fun k _ => by rw [Nat.zero_add]

/-- `sfs_fsync` writes the block of the inode and no other. -/
theorem sfsFsync_inode {u : Unit} (hnode : fs.inodes i = some node)
    (hfits : node.din.Fits) (hdisk : OnDisk fs i)
    (hrun : sfsFsync i fs = some (u, fs')) :
    (∃ node', fs'.inodes i = some node' ∧ node'.dirty = false
        ∧ node'.din = node.din ∧ node.din = DiskInode.ofBytes (fs'.disk i))
      ∧ (∀ b, b ≠ i → fs'.disk b = fs.disk b)
      ∧ fs'.super = fs.super ∧ fs'.freemap = fs.freemap := by
  obtain ⟨n, hn, ⟨hclean, rfl⟩ | hwritten⟩ := sfsFsync_run hrun
  · rw [hnode] at hn
    cases hn
    exact ⟨⟨node, hnode, hclean, rfl, hdisk node hnode hclean⟩,
      fun _ _ => rfl, rfl, rfl⟩
  · rw [hnode] at hn
    cases hn
    have hread : DiskInode.ofBytes (fs'.disk i) = node.din := by
      rw [← DiskInode.ofBytes_toBytes hfits]
      apply DiskInode.ofBytes_congr
      intro k hk
      rw [hwritten]
      show Function.update fs.disk i _ i k = _
      rw [Function.update_self, storeBytes, if_pos ⟨Nat.zero_le k, by omega⟩,
        Nat.sub_zero]
    rw [hwritten] at hread ⊢
    exact ⟨⟨_, withNode_self, rfl, rfl, hread.symm⟩,
      fun b hb => Function.update_of_ne hb _ _, rfl, rfl⟩

/-- An inode with links is written back before it leaves memory. -/
theorem reclaimInode_inode {u : Unit} (hnode : fs.inodes i = some node)
    (hfits : node.din.Fits) (hdisk : OnDisk fs i)
    (hlinks : node.din.nlinks ≠ 0)
    (hrun : reclaimInode i fs = some (u, fs')) :
    inodeOf fs' i = node.din ∧ (∀ b, b ≠ i → fs'.disk b = fs.disk b)
      ∧ fs'.super = fs.super ∧ fs'.freemap = fs.freemap := by
  unfold reclaimInode at hrun
  rw [Call.bind_eq_some] at hrun
  obtain ⟨n, _, hget, hrun⟩ := hrun
  obtain ⟨hn, hsame⟩ := getSin_run hget
  rw [hnode] at hn
  cases hn
  rw [hsame] at hrun
  -- after the write back the block holds the inode
  obtain ⟨fs₁, hblock, hother, hsuper, hmap, hrun⟩ :
      ∃ fs₁, node.din = DiskInode.ofBytes (fs₁.disk i)
        ∧ (∀ b, b ≠ i → fs₁.disk b = fs.disk b)
        ∧ fs₁.super = fs.super ∧ fs₁.freemap = fs.freemap
        ∧ (sfsRemoveLinks i >>= fun _ => pure ()) fs₁ = some (u, fs') := by
    split at hrun
    case isTrue =>
        rw [Call.bind_eq_some] at hrun
        obtain ⟨_, fs₁, hsync, hrun⟩ := hrun
        obtain ⟨⟨_, -, -, -, hblock⟩, hother, hsuper, hmap⟩ :=
          sfsFsync_inode hnode hfits hdisk hsync
        exact ⟨fs₁, hblock, hother, hsuper, hmap, hrun⟩
    case isFalse hclean =>
        exact ⟨fs, hdisk node hnode (Bool.eq_false_iff.2 hclean),
          fun _ _ => rfl, rfl, rfl, hrun⟩
  unfold sfsRemoveLinks at hrun
  simp only [Call.bind_eq_some, Call.modify_eq_some, Call.pure_eq_some]
    at hrun
  obtain ⟨_, _, hremove, -, rfl⟩ := hrun
  have hgone : (withoutNode fs₁ i).inodes i = none := withoutNode_self
  rw [hremove]
  refine ⟨?_, hother, hsuper, hmap⟩
  show inodeOf (withoutNode fs₁ i) i = _
  rw [inodeOf_unloaded hgone]
  exact hblock.symm

/-- A reclaimed inode is not in memory. -/
theorem reclaimInode_gone {u : Unit}
    (hrun : reclaimInode i fs = some (u, fs')) : fs'.inodes i = none := by
  unfold reclaimInode sfsRemoveLinks at hrun
  rw [Call.bind_eq_some] at hrun
  obtain ⟨node, fs₁, -, hrun⟩ := hrun
  have hfree : ∀ {fs₁ fs₂ : SfsFs} {b : Nat} {u : Unit},
      sfsBlockFree b fs₁ = some (u, fs₂) → fs₂.inodes = fs₁.inodes := by
    intro fs₁ fs₂ b u hrun
    obtain ⟨freemap, -, rfl⟩ := sfsBlockFree_run hrun
    rfl
  -- what the inode leaves, from the state without it
  have hleft : ∀ {fs₁ : SfsFs}, (Call.modify (fun fs : SfsFs => { fs with
        inodes := Function.update fs.inodes i none }) >>= fun _ =>
      if node.din.nlinks = 0 then do
        sfsBlockFree i
        if node.din.indirect ≠ 0 then sfsBlockFree node.din.indirect
        else pure ()
      else pure ()) fs₁ = some (u, fs') → fs'.inodes i = none := by
    intro fs₁ hrun
    rw [Call.bind_eq_some] at hrun
    obtain ⟨_, fs₂, hremove, hrun⟩ := hrun
    rw [Call.modify_eq_some] at hremove
    have hgone : fs₂.inodes i = none := by
      rw [hremove]
      exact Function.update_self i _ _
    split at hrun
    case isFalse =>
        rw [Call.pure_eq_some] at hrun
        rw [hrun.2]
        exact hgone
    case isTrue =>
        rw [Call.bind_eq_some] at hrun
        obtain ⟨_, fs₃, hself, hrun⟩ := hrun
        split at hrun
        case isTrue =>
            rw [hfree hrun, hfree hself]
            exact hgone
        case isFalse =>
            rw [Call.pure_eq_some] at hrun
            rw [hrun.2, hfree hself]
            exact hgone
  by_cases hdirty : node.dirty = true
  · rw [if_pos hdirty, Call.bind_eq_some] at hrun
    obtain ⟨_, fs₂, -, hrun⟩ := hrun
    exact hleft hrun
  · rw [if_neg hdirty] at hrun
    exact hleft hrun

/-- To remove all blocks does not fail. -/
theorem sfsTruncfile_zero {r : Except Err Unit}
    (hrun : sfsTruncfile i 0 fs = some (r, fs')) : r = .ok () := by
  unfold sfsTruncfile at hrun
  rw [if_neg (by decide), Call.bind_eq_some] at hrun
  obtain ⟨node, fs₁, -, hrun⟩ := hrun
  dsimp only at hrun
  split at hrun
  case isTrue =>
      simp only [Call.bind_eq_some, Call.assert_eq_some, Call.pure_eq_some]
        at hrun
      obtain ⟨_, _, -, hok, -⟩ := hrun
      exact hok
  case isFalse =>
      rw [Call.bind_eq_some] at hrun
      obtain ⟨o, fs₂, hresize, hrun⟩ := hrun
      have hnone : roundupDiv (Int.toNat 0) sfsBlksize = 0 := by decide
      unfold resizeFile at hresize
      rw [hnone, if_neg (Nat.not_lt_zero _)] at hresize
      simp only [Call.bind_eq_some, Call.pure_eq_some] at hresize
      obtain ⟨_, _, -, rfl, -⟩ := hresize
      simp only [Call.bind_eq_some, Call.pure_eq_some] at hrun
      obtain ⟨_, _, -, _, _, -, _, _, -, hok, -⟩ := hrun
      exact hok

/-- `sfs_reclaim` keeps the inode, in memory or on disk, or it is gone. -/
theorem sfsReclaim_inode {r : Except Err Unit}
    (hnode : fs.inodes i = some node) (hfits : node.din.Fits)
    (hdisk : OnDisk fs i) (hrun : sfsReclaim i fs = some (r, fs')) :
    node.din.nlinks = 0 ∧ fs'.inodes i = none
      ∨ inodeOf fs' i = node.din
        ∧ (∀ b, b ≠ i → fs'.disk b = fs.disk b)
        ∧ fs'.super = fs.super ∧ fs'.freemap = fs.freemap := by
  unfold sfsReclaim at hrun
  simp only [Call.bind_eq_some, Call.assert_eq_some] at hrun
  obtain ⟨n, _, hget, _, _, ⟨-, rfl⟩, _, fs₁, hset, hrun⟩ := hrun
  obtain ⟨hn, hsame⟩ := getSin_run hget
  rw [hnode] at hn
  cases hn
  obtain rfl := setSin_run hset
  rw [hsame] at hrun
  let node₁ : SfsInode := { node with reclaimCount := node.reclaimCount - 1 }
  have hnode₁ : (withNode fs i node₁).inodes i = some node₁ := withNode_self
  split at hrun
  case isTrue =>
      rw [Call.pure_eq_some] at hrun
      obtain ⟨-, rfl⟩ := hrun
      have hdin : inodeOf (withNode fs i node₁) i = node₁.din :=
        inodeOf_loaded hnode₁
      exact Or.inr ⟨hdin, fun _ _ => rfl, rfl, rfl⟩
  case isFalse =>
      split at hrun
      case isTrue hlinkless =>
          rw [Call.bind_eq_some] at hrun
          obtain ⟨o, fs₂, htruncate, hrun⟩ := hrun
          unfold vopTruncate at htruncate
          simp only [Call.bind_eq_some, Call.assert_eq_some] at htruncate
          obtain ⟨_, _, _, _, _, -, htruncate⟩ := htruncate
          obtain rfl := sfsTruncfile_zero htruncate
          simp only [Call.bind_eq_some, Call.pure_eq_some] at hrun
          obtain ⟨_, _, hreclaim, -, rfl⟩ := hrun
          exact Or.inl ⟨hlinkless, reclaimInode_gone hreclaim⟩
      case isFalse hlinked =>
          simp only [Call.bind_eq_some, Call.pure_eq_some] at hrun
          obtain ⟨_, _, hreclaim, -, rfl⟩ := hrun
          have hdisk₁ : OnDisk (withNode fs i node₁) i := by
            intro n hn hclean
            rw [hnode₁] at hn
            cases hn
            exact hdisk node hnode hclean
          obtain ⟨hdin, hother, hsuper, hmap⟩ :=
            reclaimInode_inode hnode₁ hfits hdisk₁ hlinked hreclaim
          exact Or.inr ⟨hdin, hother, hsuper, hmap⟩

/-- `inode_ref_dec` of an inode with links. -/
theorem inodeRefDec_kept {u : Unit} (hnode : fs.inodes i = some node)
    (hfits : node.din.Fits) (hdisk : OnDisk fs i)
    (hrun : inodeRefDec i fs = some (u, fs')) :
    node.din.nlinks = 0 ∧ fs'.inodes i = none
      ∨ inodeOf fs' i = node.din
        ∧ (∀ b, b ≠ i → fs'.disk b = fs.disk b)
        ∧ fs'.super = fs.super ∧ fs'.freemap = fs.freemap := by
  unfold inodeRefDec at hrun
  simp only [Call.bind_eq_some, Call.assert_eq_some] at hrun
  obtain ⟨n, _, hget, _, _, ⟨-, rfl⟩, _, fs₁, hset, hrun⟩ := hrun
  obtain ⟨hn, hsame⟩ := getSin_run hget
  rw [hnode] at hn
  cases hn
  obtain rfl := setSin_run hset
  rw [hsame] at hrun
  let node₁ : SfsInode := { node with refCount := node.refCount - 1 }
  have hnode₁ : (withNode fs i node₁).inodes i = some node₁ := withNode_self
  split at hrun
  case isFalse =>
      rw [Call.pure_eq_some] at hrun
      obtain ⟨-, rfl⟩ := hrun
      have hdin : inodeOf (withNode fs i node₁) i = node₁.din :=
        inodeOf_loaded hnode₁
      exact Or.inr ⟨hdin, fun _ _ => rfl, rfl, rfl⟩
  case isTrue =>
      simp only [Call.bind_eq_some, Call.pure_eq_some] at hrun
      obtain ⟨r, _, hreclaim, -, rfl⟩ := hrun
      have hdisk₁ : OnDisk (withNode fs i node₁) i := by
        intro n hn hclean
        rw [hnode₁] at hn
        cases hn
        exact hdisk node hnode hclean
      have hfits₁ : node₁.din.Fits := hfits
      have hout := sfsReclaim_inode hnode₁ hfits₁ hdisk₁ hreclaim
      exact hout

end Ucore.Sfs
