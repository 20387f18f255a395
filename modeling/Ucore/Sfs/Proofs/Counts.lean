/-
What the calls of SFS do to the references that inodes are counted to have:
`inode_ref_inc` and `sfs_load_inode` add one, `inode_ref_dec` takes one away,
and all else, down to the reclaiming of an inode, leaves the counts.
-/
import Ucore.Lib.Ledger
import Ucore.Lib.Call
import Ucore.Sfs.Proofs.Dir
import Mathlib.Algebra.Ring.Int.Defs
import Mathlib.Algebra.Group.Pi.Lemmas

namespace Ucore.Sfs

open Call (Relates Moves Keeps)

variable {fs fs' : SfsFs} {i b index : Nat} {node : SfsInode}

-- ================================================= blocks and inodes

/-- The inodes in memory stay. -/
def SameInodes (fs fs' : SfsFs) : Prop := fs'.inodes = fs.inodes

instance : Std.Refl SameInodes := ⟨fun _ => rfl⟩

instance : IsTrans SfsFs SameInodes := ⟨fun _ _ _ h h' => Eq.trans h' h⟩

theorem modify_inodes {f : SfsFs → SfsFs} (h : ∀ fs, (f fs).inodes = fs.inodes) :
    Relates SameInodes (Call.modify f) := Relates.modify h

theorem rwCheck_inodes : Relates SameInodes (rwCheck b) :=
  Relates.get.bind fun _ => .assert

theorem sfsRbuf_inodes {len offset : Nat} :
    Relates SameInodes (sfsRbuf len b offset) :=
  Relates.assert.bind fun _ => rwCheck_inodes.bind fun _ =>
    Relates.get.bind fun _ => .pure

theorem sfsWbuf_inodes {buf : Nat → UInt8} {len offset : Nat} :
    Relates SameInodes (sfsWbuf buf len b offset) :=
  Relates.assert.bind fun _ => rwCheck_inodes.bind fun _ =>
    modify_inodes fun _ => rfl

theorem sfsBlockInuse_inodes : Relates SameInodes (sfsBlockInuse b) :=
  Relates.get.bind fun _ => Relates.assert.bind fun _ =>
    Relates.ofOption.bind fun _ => .pure

theorem sfsBlockAlloc_inodes : Relates SameInodes sfsBlockAlloc := by
  refine Relates.get.bind fun fs => Relates.ofOption.bind fun o => ?_
  cases o with
  | none => exact .pure
  | some r =>
      have hclear : Relates SameInodes (sfsClearBlock r.1) :=
        rwCheck_inodes.bind fun _ => modify_inodes fun _ => rfl
      refine Relates.assert.bind fun _ => Relates.bind ?_ fun _ =>
        sfsBlockInuse_inodes.bind fun _ => Relates.assert.bind fun _ =>
          hclear.bind fun _ => .pure
      exact modify_inodes fun _ => rfl

theorem sfsBlockFree_inodes : Relates SameInodes (sfsBlockFree b) :=
  sfsBlockInuse_inodes.bind fun _ => Relates.assert.bind fun _ =>
    Relates.get.bind fun _ => Relates.ofOption.bind fun _ =>
      modify_inodes fun _ => rfl

theorem bmapAddEntry_inodes {ent offset : Nat} :
    Relates SameInodes (bmapAddEntry b ent offset) := by
  refine sfsBlockAlloc_inodes.bind fun r => ?_
  cases r with
  | error e =>
      exact Relates.ite (sfsBlockFree_inodes.bind fun _ => .pure) .pure
  | ok ino => exact sfsWbuf_inodes.bind fun _ => .pure

theorem sfsBmapGetSubNolock_inodes {create : Bool} :
    Relates SameInodes (sfsBmapGetSubNolock b index create) := by
  refine Relates.assert.bind fun _ => .ite
    (sfsRbuf_inodes.bind fun _ => .ite .pure bmapAddEntry_inodes)
    (.ite .pure (sfsBlockAlloc_inodes.bind fun r => ?_))
  cases r with
  | error e => exact .pure
  | ok ent => exact bmapAddEntry_inodes

theorem bmapGetOut_inodes : Relates SameInodes (bmapGetOut b) :=
  Relates.ite (sfsBlockInuse_inodes.bind fun _ => Relates.assert.bind
    fun _ => .pure) .pure

theorem sfsBmapFreeSubNolock_inodes :
    Relates SameInodes (sfsBmapFreeSubNolock b index) :=
  sfsBlockInuse_inodes.bind fun _ => Relates.assert.bind fun _ =>
    sfsRbuf_inodes.bind fun _ => .ite
      (sfsWbuf_inodes.bind fun _ => sfsBlockFree_inodes) .pure

-- ======================================================== references

theorem refCount_of_inodes (h : SameInodes fs fs') : refCount fs' = refCount fs := by
  funext k
  unfold refCount
  rw [h]

/-- A call that leaves the inodes leaves their references. -/
theorem keeps_of_inodes {α : Type} {m : SfsM α} (h : Relates SameInodes m) :
    Keeps refCount m :=
  Keeps.of_eq fun fs a fs' hrun => refCount_of_inodes (h fs a fs' hrun)

/-- A store to an inode counts what it changes of the references. -/
theorem refCount_store {node' : SfsInode} {n : Int}
    (hnode : fs.inodes i = some node) (hrefs : node'.refCount = node.refCount + n) :
    refCount (withNode fs i node') = refCount fs + Pi.single i n := by
  funext k
  rw [refCount_withNode, Pi.add_apply]
  by_cases hk : k = i
  · rw [if_pos hk, hk, Pi.single_eq_same, refCount_loaded hnode, hrefs]
  · rw [if_neg hk, Pi.single_eq_of_ne hk, add_zero]

theorem refCount_store_same {node' : SfsInode} (hnode : fs.inodes i = some node)
    (hrefs : node'.refCount = node.refCount) :
    refCount (withNode fs i node') = refCount fs := by
  rw [refCount_store (n := 0) hnode (hrefs.trans (add_zero _).symm),
    Pi.single_zero, add_zero]

/-- What follows a read of an inode knows it to be the one in memory. -/
theorem moves_getSin {α : Type} {f : SfsInode → SfsM α} {d : α → Nat → Int}
    (hf : ∀ fs node a fs', fs.inodes i = some node → f node fs = some (a, fs') →
      refCount fs' = refCount fs + d a) :
    Moves refCount (getSin i >>= f) d := by
  intro fs a fs' hrun
  obtain ⟨node, fs₁, hget, hrest⟩ := Call.bind_eq_some.1 hrun
  obtain ⟨hnode, rfl⟩ := getSin_run hget
  exact hf fs₁ node a fs' hnode hrest

theorem getSin_keeps : Keeps refCount (getSin i) :=
  Keeps.get.bind fun _ => Keeps.ofOption

/-- A store to an inode that was just read. -/
theorem moves_store {g : SfsInode → SfsInode} {n : Int}
    (h : ∀ node, (g node).refCount = node.refCount + n) :
    Moves refCount (getSin i >>= fun node => setSin i (g node))
      fun _ => Pi.single i n := by
  refine moves_getSin fun fs node _ fs' hnode hrun => ?_
  obtain rfl := setSin_run hrun
  exact refCount_store hnode (h node)

theorem inodeRefInc_moves :
    Moves refCount (inodeRefInc i) fun _ => Pi.single i 1 := by
  refine moves_getSin fun fs node refs fs' hnode hrun => ?_
  simp only [Call.bind_eq_some, Call.pure_eq_some] at hrun
  obtain ⟨_, _, hset, -, rfl⟩ := hrun
  obtain rfl := setSin_run hset
  exact refCount_store hnode rfl

/-- `sfs_load_inode` takes a reference, also where the inode was in memory. -/
theorem sfsLoadInode_moves :
    Moves refCount (sfsLoadInode i) fun _ => Pi.single i 1 := by
  intro fs u fs' hrun
  unfold sfsLoadInode lookupSfsNolock at hrun
  rw [Call.bind_eq_some] at hrun
  obtain ⟨found, fs₁, hlookup, hrun⟩ := hrun
  rw [Call.bind_eq_some] at hlookup
  obtain ⟨s, fs₂, hget, hlookup⟩ := hlookup
  obtain ⟨hs, hfs₂⟩ := Call.get_eq_some.1 hget
  rw [hs, hfs₂] at hlookup
  cases hnode : fs.inodes i with
  | some node =>
      rw [hnode] at hlookup
      dsimp only at hlookup
      rw [Call.bind_eq_some] at hlookup
      obtain ⟨refs, fs₃, hinc, hlookup⟩ := hlookup
      have hrefs := inodeRefInc_moves fs refs fs₃ hinc
      obtain ⟨hfound, hsame⟩ : found = true ∧ refCount fs₁ = refCount fs₃ := by
        split at hlookup
        case isTrue =>
            simp only [Call.bind_eq_some, Call.pure_eq_some] at hlookup
            obtain ⟨node₁, _, hget₁, _, _, hset, rfl, rfl⟩ := hlookup
            obtain ⟨hnode₁, rfl⟩ := getSin_run hget₁
            obtain rfl := setSin_run hset
            exact ⟨rfl, refCount_store_same hnode₁ rfl⟩
        case isFalse =>
            rw [Call.pure_eq_some] at hlookup
            exact ⟨hlookup.1.symm ▸ rfl, by rw [hlookup.2]⟩
      rw [hfound, if_pos rfl, Call.pure_eq_some] at hrun
      rw [hrun.2, hsame, hrefs]
  | none =>
      rw [hnode] at hlookup
      dsimp only at hlookup
      obtain ⟨hfound, hsame⟩ := Call.pure_eq_some.1 hlookup
      rw [hfound, if_neg Bool.false_ne_true, hsame] at hrun
      unfold sfsCreateInode at hrun
      simp only [Call.bind_eq_some, Call.assert_eq_some] at hrun
      obtain ⟨_, fs₂, hinuse, _, _, ⟨-, hfs₃⟩, buf, fs₄, hread, _, _,
        ⟨-, hfs₅⟩, _, _, ⟨-, hfs₆⟩, hset⟩ := hrun
      rw [hfs₃] at hread
      rw [hfs₆, hfs₅] at hset
      have hinodes : SameInodes fs fs₄ :=
        (sfsRbuf_inodes _ _ _ hread).trans (sfsBlockInuse_inodes _ _ _ hinuse)
      obtain rfl := setSin_run hset
      funext k
      show refCount (withNode fs₄ i _) k
        = refCount fs k + (Pi.single i 1 : Nat → Int) k
      rw [refCount_withNode]
      by_cases hk : k = i
      · rw [if_pos hk, hk, Pi.single_eq_same, refCount, hnode, zero_add]
      · rw [if_neg hk, Pi.single_eq_of_ne hk, add_zero,
          refCount_of_inodes hinodes]

-- ============================================================= files

theorem sfsBmapGetNolock_keeps {create : Bool} :
    Keeps refCount (sfsBmapGetNolock i index create) := by
  refine moves_getSin fun fs node r fs' hnode hrun => ?_
  rw [add_zero]
  -- a block that is stored in the inode came while the inodes stayed
  have hstored : ∀ {fs₁ : SfsFs} {node' : SfsInode} {ino : Nat},
      SameInodes fs fs₁ →
      (setSin i node' >>= fun _ => bmapGetOut ino) fs₁ = some (r, fs') →
      node'.refCount = node.refCount → refCount fs' = refCount fs := by
    intro fs₁ node' ino hinodes hrun hrefs
    obtain ⟨_, fs₂, hset, hout⟩ := Call.bind_eq_some.1 hrun
    obtain rfl := setSin_run hset
    rw [refCount_of_inodes (bmapGetOut_inodes _ _ _ hout),
      refCount_store_same ((congrFun hinodes i).trans hnode) hrefs,
      refCount_of_inodes hinodes]
  dsimp only at hrun
  split at hrun
  case isTrue =>
      split at hrun
      case isFalse => exact refCount_of_inodes (bmapGetOut_inodes _ _ _ hrun)
      case isTrue =>
          rw [Call.bind_eq_some] at hrun
          obtain ⟨o, fs₁, halloc, hrun⟩ := hrun
          have hinodes := sfsBlockAlloc_inodes _ _ _ halloc
          cases o with
          | error e =>
              rw [(Call.pure_eq_some.1 hrun).2]
              exact refCount_of_inodes hinodes
          | ok ino => exact hstored hinodes hrun rfl
  case isFalse =>
      split at hrun
      case isFalse => exact absurd hrun Call.panic_ne_some
      case isTrue =>
          rw [Call.bind_eq_some] at hrun
          obtain ⟨o, fs₁, hget, hrun⟩ := hrun
          have hinodes := sfsBmapGetSubNolock_inodes _ _ _ hget
          cases o with
          | error e =>
              rw [(Call.pure_eq_some.1 hrun).2]
              exact refCount_of_inodes hinodes
          | ok got =>
              dsimp only at hrun
              split at hrun
              case isTrue =>
                  rw [Call.bind_eq_some] at hrun
                  obtain ⟨_, fs₂, hassert, hrun⟩ := hrun
                  rw [(Call.assert_eq_some.1 hassert).2] at hrun
                  exact hstored hinodes hrun rfl
              case isFalse =>
                  rw [refCount_of_inodes (bmapGetOut_inodes _ _ _ hrun),
                    refCount_of_inodes hinodes]

theorem sfsBmapFreeNolock_keeps : Keeps refCount (sfsBmapFreeNolock i index) := by
  refine moves_getSin fun fs node u fs' hnode hrun => ?_
  rw [add_zero]
  dsimp only at hrun
  split at hrun
  case isTrue =>
      split at hrun
      case isFalse => rw [(Call.pure_eq_some.1 hrun).2]
      case isTrue =>
          obtain ⟨_, fs₁, hfree, hset⟩ := Call.bind_eq_some.1 hrun
          have hinodes := sfsBlockFree_inodes _ _ _ hfree
          obtain rfl := setSin_run hset
          refine Eq.trans ?_ (refCount_of_inodes hinodes)
          exact refCount_store_same ((congrFun hinodes i).trans hnode) rfl
  case isFalse =>
      split at hrun
      case isTrue =>
          exact refCount_of_inodes (sfsBmapFreeSubNolock_inodes _ _ _ hrun)
      case isFalse => rw [(Call.pure_eq_some.1 hrun).2]

/-- A store to an inode, just read, that keeps its references. -/
theorem keeps_store {g : SfsInode → SfsInode}
    (h : ∀ node, (g node).refCount = node.refCount) :
    Keeps refCount (getSin i >>= fun node => setSin i (g node)) :=
  (moves_store fun node => (h node).trans (add_zero _).symm).congr fun _ =>
    (Pi.single_zero i).symm

theorem sfsBmapLoadNolock_keeps : Keeps refCount (sfsBmapLoadNolock i index) := by
  refine getSin_keeps.bind fun node => Keeps.assert.bind fun _ =>
    sfsBmapGetNolock_keeps.bind fun r => ?_
  cases r with
  | error e => exact Keeps.pure
  | ok ino =>
      refine (keeps_of_inodes sfsBlockInuse_inodes).bind fun _ =>
        Keeps.assert.bind fun _ => .ite ?_ Keeps.pure
      apply moves_getSin
      intro fs node a fs' hnode hrun
      simp only [Call.bind_eq_some, Call.pure_eq_some] at hrun
      obtain ⟨_, _, hset, -, rfl⟩ := hrun
      obtain rfl := setSin_run hset
      rw [add_zero]
      exact refCount_store_same hnode rfl

theorem sfsBmapTruncateNolock_keeps : Keeps refCount (sfsBmapTruncateNolock i) :=
  getSin_keeps.bind fun _ => Keeps.assert.bind fun _ =>
    sfsBmapFreeNolock_keeps.bind fun _ => keeps_store fun _ => rfl

theorem growFile_keeps : ∀ {n nblks : Nat}, Keeps refCount (growFile i n nblks)
  | 0, _ => Keeps.pure
  | n + 1, nblks => by
      refine sfsBmapLoadNolock_keeps.bind fun r => ?_
      cases r with
      | error e => exact Keeps.pure
      | ok _ => exact growFile_keeps

theorem shrinkFile_keeps : ∀ {n : Nat}, Keeps refCount (shrinkFile i n)
  | 0 => Keeps.pure
  | _ + 1 => sfsBmapTruncateNolock_keeps.bind fun _ => shrinkFile_keeps

theorem resizeFile_keeps {nblks tblks : Nat} :
    Keeps refCount (resizeFile i nblks tblks) :=
  Moves.ite growFile_keeps (shrinkFile_keeps.bind fun _ => Keeps.pure)

theorem sfsTruncfile_keeps {len : Int} : Keeps refCount (sfsTruncfile i len) := by
  refine Moves.ite Keeps.pure (getSin_keeps.bind fun node => Moves.ite
    (Keeps.assert.bind fun _ => Keeps.pure)
    (resizeFile_keeps.bind fun r => ?_))
  cases r with
  | error e => exact Keeps.pure
  | ok _ =>
      apply moves_getSin
      intro fs node a fs' hnode hrun
      simp only [Call.bind_eq_some, Call.assert_eq_some, Call.pure_eq_some]
        at hrun
      obtain ⟨_, _, ⟨-, rfl⟩, _, _, hset, -, rfl⟩ := hrun
      obtain rfl := setSin_run hset
      rw [add_zero]
      exact refCount_store_same hnode rfl

theorem vopTruncate_keeps {len : Int} : Keeps refCount (vopTruncate i len) :=
  getSin_keeps.bind fun _ => Keeps.assert.bind fun _ => sfsTruncfile_keeps

theorem sfsFsync_keeps : Keeps refCount (sfsFsync i) := by
  refine moves_getSin fun fs node u fs' hnode hrun => ?_
  rw [add_zero]
  split at hrun
  case isTrue =>
      obtain ⟨_, fs₁, hset, hwrite⟩ := Call.bind_eq_some.1 hrun
      obtain rfl := setSin_run hset
      rw [refCount_of_inodes (sfsWbuf_inodes _ _ _ hwrite)]
      exact refCount_store_same hnode rfl
  case isFalse => rw [(Call.pure_eq_some.1 hrun).2]

-- ======================================================== reclaiming

/-- An inode that leaves memory takes its references along. -/
theorem sfsRemoveLinks_run {u : Unit} (hrun : sfsRemoveLinks i fs = some (u, fs')) :
    refCount fs' = refCount fs + Pi.single i (-refCount fs i) := by
  obtain rfl := Call.modify_eq_some.1 hrun
  funext k
  rw [Pi.add_apply]
  by_cases hk : k = i
  · have hgone : refCount (withoutNode fs i) i = 0 := by
      rw [refCount, withoutNode_self]
    rw [hk, Pi.single_eq_same, add_neg_cancel]
    exact hgone
  · have hother : refCount (withoutNode fs i) k = refCount fs k := by
      unfold refCount
      rw [withoutNode_ne hk]
    rw [Pi.single_eq_of_ne hk, add_zero]
    exact hother

/-- An inode is reclaimed without references, so none are lost. -/
theorem reclaimInode_keeps {u : Unit} (hrefs : refCount fs i = 0)
    (hrun : reclaimInode i fs = some (u, fs')) : refCount fs' = refCount fs := by
  unfold reclaimInode at hrun
  rw [Call.bind_eq_some] at hrun
  obtain ⟨node, fs₁, hget, hrun⟩ := hrun
  obtain ⟨-, rfl⟩ := getSin_run hget
  -- the rest of the call, once the inode is written back
  have hrest : ∀ {fs₂ : SfsFs}, refCount fs₂ = refCount fs₁ →
      (sfsRemoveLinks i >>= fun _ =>
        if node.din.nlinks = 0 then do
          sfsBlockFree i
          if node.din.indirect ≠ 0 then sfsBlockFree node.din.indirect
          else pure ()
        else pure ()) fs₂ = some (u, fs') →
      refCount fs' = refCount fs₁ := by
    intro fs₂ hsame hrun
    obtain ⟨_, fs₃, hremove, hrun⟩ := Call.bind_eq_some.1 hrun
    have hfree : Relates SameInodes (if node.din.nlinks = 0 then do
          sfsBlockFree i
          if node.din.indirect ≠ 0 then sfsBlockFree node.din.indirect
          else pure ()
        else pure ()) :=
      Relates.ite (sfsBlockFree_inodes.bind fun _ =>
        .ite sfsBlockFree_inodes .pure) .pure
    rw [refCount_of_inodes (hfree _ _ _ hrun), sfsRemoveLinks_run hremove, hsame,
      hrefs, neg_zero, Pi.single_zero, add_zero]
  split at hrun
  case isTrue =>
      obtain ⟨_, fs₂, hsync, hrun⟩ := Call.bind_eq_some.1 hrun
      exact hrest (sfsFsync_keeps.eq hsync) hrun
  case isFalse => exact hrest rfl hrun

theorem sfsReclaim_keeps : Keeps refCount (sfsReclaim i) := by
  refine moves_getSin fun fs node r fs' hnode hrun => ?_
  rw [add_zero]
  rw [Call.bind_assert_eq_some] at hrun
  obtain ⟨_, fs₁, hset, hrun⟩ := Call.bind_eq_some.1 hrun.2
  obtain rfl := setSin_run hset
  have hsame : refCount (withNode fs i
      { node with reclaimCount := node.reclaimCount - 1 }) = refCount fs :=
    refCount_store_same hnode rfl
  split at hrun
  case isTrue =>
      rw [(Call.pure_eq_some.1 hrun).2]
      exact hsame
  case isFalse hbusy =>
      have hzero : node.refCount = 0 := by
        by_contra hne
        exact hbusy (Or.inr hne)
      rw [← refCount_loaded hnode] at hzero
      split at hrun
      case isTrue =>
          rw [Call.bind_eq_some] at hrun
          obtain ⟨o, fs₂, htruncate, hrun⟩ := hrun
          have hkept := (vopTruncate_keeps.eq htruncate).trans hsame
          cases o with
          | error e =>
              rw [(Call.pure_eq_some.1 hrun).2]
              exact hkept
          | ok _ =>
              simp only [Call.bind_eq_some, Call.pure_eq_some] at hrun
              obtain ⟨_, _, hreclaim, -, rfl⟩ := hrun
              rw [reclaimInode_keeps (by rw [hkept]; exact hzero) hreclaim]
              exact hkept
      case isFalse =>
          simp only [Call.bind_eq_some, Call.pure_eq_some] at hrun
          obtain ⟨_, _, hreclaim, -, rfl⟩ := hrun
          rw [reclaimInode_keeps (by rw [hsame]; exact hzero) hreclaim]
          exact hsame

theorem inodeRefDec_moves :
    Moves refCount (inodeRefDec i) fun _ => -Pi.single i 1 := by
  refine moves_getSin fun fs node u fs' hnode hrun => ?_
  rw [Call.bind_assert_eq_some] at hrun
  obtain ⟨_, fs₁, hset, hrun⟩ := Call.bind_eq_some.1 hrun.2
  obtain rfl := setSin_run hset
  have hstored : refCount (withNode fs i { node with refCount := node.refCount - 1 })
      = refCount fs + Pi.single i (-1) := refCount_store hnode rfl
  rw [Pi.single_neg] at hstored
  split at hrun
  case isTrue =>
      simp only [Call.bind_eq_some, Call.pure_eq_some] at hrun
      obtain ⟨_, _, hreclaim, -, rfl⟩ := hrun
      rw [sfsReclaim_keeps.eq hreclaim]
      exact hstored
  case isFalse =>
      rw [(Call.pure_eq_some.1 hrun).2]
      exact hstored

-- =========================================================== lookups

theorem sfsDirentReadEntry_keeps : Keeps refCount (sfsDirentReadEntry i index) := by
  refine getSin_keeps.bind fun _ => Keeps.assert.bind fun _ =>
    sfsBmapLoadNolock_keeps.bind fun r => ?_
  cases r with
  | error e => exact Keeps.pure
  | ok ino =>
      exact (keeps_of_inodes sfsBlockInuse_inodes).bind fun _ =>
        Keeps.assert.bind fun _ => (keeps_of_inodes sfsRbuf_inodes).bind
          fun _ => Keeps.pure

theorem direntSearchLoop_keeps {name : List UInt8} :
    ∀ {n index : Nat}, Keeps refCount (direntSearchLoop i name n index)
  | 0, _ => Keeps.pure
  | n + 1, index => by
      refine sfsDirentReadEntry_keeps.bind fun r => ?_
      cases r with
      | error e => exact Keeps.pure
      | ok entry => exact Moves.ite Keeps.pure direntSearchLoop_keeps

/-- What a lookup takes: a reference to the inode it finds. -/
def found : Except Err Nat → Nat → Int
  | .ok j => Pi.single j 1
  | .error _ => 0

theorem sfsLookupOnce_moves {name : List UInt8} :
    Moves refCount (sfsLookupOnce i name) found := by
  refine Keeps.bind (Keeps.assert.bind fun _ => getSin_keeps.bind fun _ =>
    direntSearchLoop_keeps) fun r => ?_
  cases r with
  | error e => exact Moves.pure rfl
  | ok got =>
      refine sfsLoadInode_moves.bind fun _ => Moves.pure ?_
      exact sub_self _

theorem sfsLookup_moves {path : List UInt8} :
    Moves refCount (sfsLookup i path) found := by
  refine Keeps.assert.bind fun _ => inodeRefInc_moves.bind fun _ =>
    getSin_keeps.bind fun sin => Moves.ite ?_ ?_
  · refine inodeRefDec_moves.bind fun _ => Moves.pure ?_
    show (0 : Nat → Int) - Pi.single i 1 - -Pi.single i 1 = 0
    rw [sub_neg_eq_add, sub_add_cancel]
  · refine sfsLookupOnce_moves.bind fun r => inodeRefDec_moves.bind fun _ =>
      Moves.pure ?_
    show found r - Pi.single i 1 - found r - -Pi.single i 1 = 0
    rw [sub_neg_eq_add, sub_sub_cancel_left, neg_add_cancel]

end Ucore.Sfs
