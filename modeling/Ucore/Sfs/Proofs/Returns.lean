/-
The block functions of SFS return: while blocks are accounted for none of
their assertions fails, whether or not a block is free.
-/
import Ucore.Sfs.Size
import Ucore.Sfs.Proofs.BlockMap

namespace Ucore.Sfs

open Call (Returns)

variable {fs fs' : SfsFs} {files held : Finset Nat} {i b ent entp : Nat}
  {node : SfsInode}

-- ====================================================== the free map

/-- A word that is not zero has a bit that is set. -/
theorem exists_bitMask {w : BitVec 32} (h : w ≠ 0) :
    ∃ offset < wordBits, w &&& bitMask offset ≠ 0 := by
  by_contra hno
  apply h
  apply BitVec.eq_of_getLsbD_eq
  intro offset hlt
  have hclear : w.getLsbD offset = false := by
    by_contra hset
    rw [Bool.not_eq_false] at hset
    exact hno ⟨offset, hlt, (and_bitMask w hlt).2 hset⟩
  rw [hclear]
  exact BitVec.getLsbD_zero.symm

theorem bitmapAlloc_isSome (m : Bitmap) : ∃ r, bitmapAlloc m = some r := by
  unfold bitmapAlloc
  cases hix : (List.range m.nwords).find? fun ix => decide (m.map ix ≠ 0) with
  | none => exact ⟨_, rfl⟩
  | some ix =>
      dsimp only
      have hfound := List.find?_some hix
      have hword : m.map ix ≠ 0 := of_decide_eq_true hfound
      obtain ⟨offset, hlt, hset⟩ := exists_bitMask hword
      cases hoff : (List.range wordBits).find? fun offset =>
          decide (m.map ix &&& bitMask offset ≠ 0) with
      | none =>
          have hno := List.find?_eq_none.1 hoff offset (List.mem_range.2 hlt)
          exact absurd (decide_eq_true hset) hno
      | some _ => exact ⟨_, rfl⟩

theorem bitmapFree_isSome {m : Bitmap} (hlt : b < m.nbits)
    (hbit : m.bit b = false) : ∃ m', bitmapFree m b = some m' := by
  have hmod : b % wordBits < wordBits := Nat.mod_lt _ (by decide)
  have hzero : m.map (b / wordBits) &&& bitMask (b % wordBits) = 0 := by
    by_contra hne
    have hset := (and_bitMask _ hmod).1 hne
    have hclear : (m.map (b / wordBits)).getLsbD (b % wordBits) = false := hbit
    rw [hclear] at hset
    cases hset
  unfold bitmapFree
  rw [if_pos hlt]
  dsimp only
  rw [if_pos hzero]
  exact ⟨_, rfl⟩

-- ============================================================ blocks

/-- A block in use has a number within the volume. -/
theorem Used.range (h : Used fs b) : b ≠ 0 ∧ b < fs.super.blocks := by
  obtain ⟨hlt, -, hlo⟩ := h
  refine ⟨?_, hlt⟩
  rcases hlo with hlo | rfl
  · unfold reservedBlocks sfsBlknFreemap at hlo
    omega
  · decide

theorem MapOk.lt_nbits (h : MapOk fs) (hb : b < fs.super.blocks) :
    b < fs.freemap.nbits := by
  rw [h.nbits]
  exact Nat.lt_of_lt_of_le hb (blocks_le_freemapBits fs.super)

theorem sfsBlockInuse_eq (h : MapOk fs) (hne : b ≠ 0)
    (hlt : b < fs.super.blocks) :
    sfsBlockInuse b fs = some (!fs.freemap.bit b, fs) := by
  unfold sfsBlockInuse
  simp only [Call.bind_eq_some, Call.get_eq_some, Call.assert_eq_some,
    Call.ofOption_eq_some, Call.pure_eq_some]
  exact ⟨fs, fs, ⟨rfl, rfl⟩, (), fs, ⟨⟨hne, hlt⟩, rfl⟩, fs.freemap.bit b, fs,
    ⟨bitmapTest_eq_some.2 ⟨h.lt_nbits hlt, rfl⟩, rfl⟩, rfl, rfl⟩

/-- `sfs_block_inuse` of a block in use, and the assertion after it. -/
theorem Used.inuse {α : Type} {f : Unit → SfsM α} (h : Used fs b)
    (hmap : MapOk fs) (hrest : Returns (f ()) fs) :
    Returns (sfsBlockInuse b >>= fun inuse =>
      Call.assert (inuse = true) >>= f) fs := by
  have hinuse := sfsBlockInuse_eq hmap h.range.1 h.range.2
  rw [h.2.1] at hinuse
  exact (Returns.bind_iff hinuse).2 (Returns.assert rfl hrest)

theorem rwCheck_eq (hne : b ≠ 0) (hlt : b < fs.super.blocks) :
    rwCheck b fs = some ((), fs) := by
  unfold rwCheck
  simp only [Call.bind_eq_some, Call.get_eq_some, Call.assert_eq_some]
  exact ⟨fs, fs, ⟨rfl, rfl⟩, ⟨hne, hlt⟩, rfl⟩

theorem sfsRbuf_returns {len offset : Nat} (h : Used fs b)
    (hoffset : offset < sfsBlksize) (hlen : offset + len ≤ sfsBlksize) :
    Returns (sfsRbuf len b offset) fs := by
  unfold sfsRbuf
  apply Returns.assert ⟨hoffset, hlen⟩
  apply (Returns.bind_iff (rwCheck_eq h.range.1 h.range.2)).2
  exact Returns.get Returns.pure

theorem sfsWbuf_returns {buf : Nat → UInt8} {len offset : Nat} (h : Used fs b)
    (hoffset : offset < sfsBlksize) (hlen : offset + len ≤ sfsBlksize) :
    Returns (sfsWbuf buf len b offset) fs := by
  unfold sfsWbuf
  apply Returns.assert ⟨hoffset, hlen⟩
  apply (Returns.bind_iff (rwCheck_eq h.range.1 h.range.2)).2
  exact ⟨_, _, rfl⟩

/-- The entries of an indirect block are within it. -/
theorem entry_range {j : Nat} (h : j < sfsBlkNentry) :
    j * 4 < sfsBlksize ∧ j * 4 + 4 ≤ sfsBlksize := by
  unfold sfsBlkNentry at h
  unfold sfsBlksize at *
  omega

theorem Inv.used_held (h : Inv held ⟨fs, files⟩) (hb : b ∈ held) :
    Used fs b :=
  h.exact.used_iff.2 (Or.inr hb)

theorem Inv.used_target (h : Inv held ⟨fs, files⟩) (hi : i ∈ files) {pos : Pos}
    (hne : target fs i pos ≠ 0) : Used fs (target fs i pos) :=
  h.exact.used_iff.2 (Or.inl ⟨(i, pos), hi, rfl, hne⟩)

theorem sfsBlockAlloc_returns (h : Inv held ⟨fs, files⟩) :
    Returns sfsBlockAlloc fs := by
  obtain ⟨o, halloc⟩ := bitmapAlloc_isSome fs.freemap
  unfold sfsBlockAlloc
  apply Returns.get
  apply Returns.ofOption halloc
  cases o with
  | none => exact Returns.pure
  | some a =>
      obtain ⟨ino, freemap⟩ := a
      obtain ⟨hinv, -, -, -⟩ := h.take halloc
      have hused := hinv.used_held (Finset.mem_insert_self ino held)
      -- the block was free, so the super block counts one at least
      have hfree : 0 < fs.super.unusedBlocks := by
        rw [h.map.unused_eq]
        rcases bitmapAlloc_spec halloc with ⟨hnone, -⟩ | ⟨_, _, heq, hspec⟩
        · cases hnone
        · cases heq
          obtain ⟨-, -, hlt, hbit, -⟩ := hspec
          rw [h.map.nwords] at hlt
          exact Finset.card_pos.2 ⟨ino, mem_freeBits.2 ⟨hlt, hbit⟩⟩
      apply Returns.assert hfree
      apply Returns.modify
      show Returns _ (withFreemap fs freemap (fs.super.unusedBlocks - 1))
      apply hused.inuse hinv.map
      unfold sfsClearBlock
      refine Returns.bind ?_ fun _ _ _ => Returns.pure
      apply (Returns.bind_iff (rwCheck_eq hused.range.1 hused.range.2)).2
      exact ⟨_, _, rfl⟩

/-- The bit of the block that `sfs_block_alloc` gives was set, and is the only
one it clears. -/
theorem sfsBlockAlloc_bits {ino : Nat}
    (hrun : sfsBlockAlloc fs = some (.ok ino, fs')) :
    fs.freemap.bit ino = true ∧ (∀ b, fs'.freemap.bit b
      = (!decide (b = ino) && fs.freemap.bit b))
      ∧ fs'.super = { fs.super with
        unusedBlocks := fs.super.unusedBlocks - 1 } := by
  unfold sfsBlockAlloc at hrun
  simp only [Call.bind_eq_some, Call.get_eq_some, Call.ofOption_eq_some]
    at hrun
  obtain ⟨_, _, ⟨rfl, rfl⟩, o, _, ⟨halloc, rfl⟩, hrun⟩ := hrun
  cases o with
  | none =>
      rw [Call.pure_eq_some] at hrun
      cases hrun.1
  | some a =>
      obtain ⟨ino', freemap⟩ := a
      unfold sfsClearBlock at hrun
      simp only [Call.bind_eq_some, Call.assert_eq_some, Call.modify_eq_some,
        Call.pure_eq_some] at hrun
      obtain ⟨_, _, ⟨-, rfl⟩, _, fs₁, hmap, inuse, _, hinuse, _, _,
        ⟨-, rfl⟩, _, _, ⟨_, _, hcheck, rfl⟩, heq, rfl⟩ := hrun
      cases heq
      obtain ⟨rfl, -⟩ := sfsBlockInuse_run hinuse
      obtain ⟨rfl, -⟩ := rwCheck_run hcheck
      subst hmap
      rcases bitmapAlloc_spec halloc with ⟨hnone, -⟩ | ⟨_, _, heq, hspec⟩
      · cases hnone
      · cases heq
        obtain ⟨-, -, -, hbit, hbits⟩ := hspec
        exact ⟨hbit, hbits, rfl⟩

/-- A block in use stays so when another is allocated. -/
theorem Used.alloc {ino : Nat} (h : Used fs b)
    (hrun : sfsBlockAlloc fs = some (.ok ino, fs')) : Used fs' b := by
  obtain ⟨-, hbits, hsuper⟩ := sfsBlockAlloc_bits hrun
  obtain ⟨hlt, hbit, hlo⟩ := h
  unfold Used
  rw [hbits, hbit, Bool.and_false, hsuper]
  exact ⟨hlt, rfl, hlo⟩

theorem sfsBlockFree_returns (h : Used fs b) (hmap : MapOk fs) :
    Returns (sfsBlockFree b) fs := by
  obtain ⟨freemap, hfree⟩ :=
    bitmapFree_isSome (hmap.lt_nbits h.range.2) h.2.1
  unfold sfsBlockFree
  apply h.inuse hmap
  apply Returns.get
  apply Returns.ofOption hfree
  exact ⟨_, _, rfl⟩

-- ===================================================== the block map

/-- An entry is added to a block in use; one that is new is in hand. -/
theorem bmapAddEntry_returns {j : Nat} (h : Inv held ⟨fs, files⟩)
    (hent : Used fs ent) (hj : j < sfsBlkNentry)
    (hnew : ent ≠ entp → ent ∈ held) :
    Returns (bmapAddEntry entp ent (j * 4)) fs := by
  obtain ⟨hoffset, hlen⟩ := entry_range hj
  unfold bmapAddEntry
  refine Returns.bind (sfsBlockAlloc_returns h) fun o fs₁ halloc => ?_
  rcases sfsBlockAlloc_spec h halloc with ⟨rfl, rfl, -⟩
    | ⟨ino, rfl, -⟩
  · dsimp only
    split
    case isTrue hne =>
        refine Returns.bind ?_ fun _ _ _ => Returns.pure
        exact sfsBlockFree_returns (h.used_held (hnew hne)) h.map
    case isFalse => exact Returns.pure
  · dsimp only
    exact Returns.bind (sfsWbuf_returns (hent.alloc halloc) hoffset hlen)
      fun _ _ _ => Returns.pure

/-- A block that `bmapAddEntry` adds is in use. Where it gets none it gives
the indirect block back that is new. -/
theorem bmapAddEntry_run {j : Nat} {r : Except Err (Nat × Nat)}
    (h : Inv held ⟨fs, files⟩)
    (hrun : bmapAddEntry entp ent (j * 4) fs = some (r, fs')) :
    (∃ ino, r = .ok (ent, ino) ∧ Used fs' ino
      ∧ fs.super.unusedBlocks = fs'.super.unusedBlocks + 1)
    ∨ r = .error .noMem ∧ fs.super.unusedBlocks = 0
      ∧ (ent = entp → fs' = fs)
      ∧ (ent ≠ entp → fs'.super.unusedBlocks = 1
        ∧ ∀ b, fs'.freemap.bit b = (decide (b = ent) || fs.freemap.bit b)) := by
  unfold bmapAddEntry at hrun
  rw [Call.bind_eq_some] at hrun
  obtain ⟨o, fs₁, halloc, hrun⟩ := hrun
  rcases sfsBlockAlloc_spec h halloc with ⟨rfl, rfl, hfull⟩
    | ⟨ino, rfl, -, -, -, -, hinv, -, -, -, -, -, hcount⟩
  · dsimp only at hrun
    split at hrun
    case isTrue hne =>
        rw [Call.bind_eq_some] at hrun
        obtain ⟨_, fs₂, hfree, hrun⟩ := hrun
        rw [Call.pure_eq_some] at hrun
        obtain ⟨rfl, rfl⟩ := hrun
        obtain ⟨freemap, hmap, rfl⟩ := sfsBlockFree_run hfree
        obtain ⟨-, -, -, -, hbits⟩ := bitmapFree_spec hmap
        exact Or.inr ⟨rfl, hfull, fun heq => absurd heq hne,
          fun _ => ⟨congrArg (· + 1) hfull, hbits⟩⟩
    case isFalse heq =>
        rw [Call.pure_eq_some] at hrun
        obtain ⟨rfl, rfl⟩ := hrun
        exact Or.inr ⟨rfl, hfull, fun _ => rfl, fun hne => absurd hne heq⟩
  · dsimp only at hrun
    rw [Call.bind_eq_some] at hrun
    obtain ⟨_, fs₂, hwrite, hrun⟩ := hrun
    rw [Call.pure_eq_some] at hrun
    obtain ⟨rfl, rfl⟩ := hrun
    obtain rfl := sfsWbuf_entry hwrite
    have hused := hinv.used_held (Finset.mem_insert_self ino held)
    exact Or.inl ⟨ino, rfl, hused, hcount⟩

/-- The indirect block of an inode in memory is in use. -/
theorem Inv.used_indirect (h : Inv held ⟨fs, files⟩)
    (hnode : fs.inodes i = some node) (hne : node.din.indirect ≠ 0) :
    Used fs node.din.indirect := by
  have htarget : target fs i .indirect = node.din.indirect := by
    show (inodeOf fs i).indirect = _
    rw [inodeOf_loaded hnode]
  rw [← htarget] at hne ⊢
  exact h.used_target (h.loaded hnode).1 hne

/-- And so is a block it has an entry for. -/
theorem Inv.used_entry {j : Nat} (h : Inv held ⟨fs, files⟩)
    (hnode : fs.inodes i = some node) (hind : node.din.indirect ≠ 0)
    (hj : j < sfsBlkNentry) (hne : entryAt fs.disk node.din.indirect j ≠ 0) :
    Used fs (entryAt fs.disk node.din.indirect j) := by
  have htarget : target fs i (.entry ⟨j, hj⟩)
      = entryAt fs.disk node.din.indirect j := by
    rw [target_entry, inodeOf_loaded hnode, if_neg hind]
  rw [← htarget] at hne ⊢
  exact h.used_target (h.loaded hnode).1 hne

theorem Inv.used_direct {k : Fin sfsNdirect} (h : Inv held ⟨fs, files⟩)
    (hnode : fs.inodes i = some node) (hne : node.din.direct k ≠ 0) :
    Used fs (node.din.direct k) := by
  have htarget : target fs i (.direct k) = node.din.direct k := by
    show (inodeOf fs i).direct k = _
    rw [inodeOf_loaded hnode]
  rw [← htarget] at hne ⊢
  exact h.used_target (h.loaded hnode).1 hne

theorem sfsBmapGetSubNolock_returns {index : Nat} {create : Bool}
    (h : Inv held ⟨fs, files⟩) (hnode : fs.inodes i = some node)
    (hindex : index < sfsBlkNentry) :
    Returns (sfsBmapGetSubNolock node.din.indirect index create) fs := by
  obtain ⟨hoffset, hlen⟩ := entry_range hindex
  unfold sfsBmapGetSubNolock
  apply Returns.assert hindex
  dsimp only
  split
  case isTrue hind =>
      have hused := h.used_indirect hnode hind
      refine Returns.bind (sfsRbuf_returns hused hoffset hlen)
        fun buf fs₁ hread => ?_
      obtain ⟨rfl, -⟩ := sfsRbuf_entry hread
      split
      case isTrue => exact Returns.pure
      case isFalse =>
          exact bmapAddEntry_returns h hused hindex fun hne => absurd rfl hne
  case isFalse =>
      split
      case isTrue => exact Returns.pure
      case isFalse =>
          refine Returns.bind (sfsBlockAlloc_returns h) fun o fs₁ halloc => ?_
          rcases sfsBlockAlloc_spec h halloc with ⟨rfl, -⟩
            | ⟨ent, rfl, -, -, -, -, hinv, -⟩
          · exact Returns.pure
          · have hin : ent ∈ insert ent held := Finset.mem_insert_self ent held
            exact bmapAddEntry_returns hinv (hinv.used_held hin) hindex
              fun _ => hin

-- =========================================== the blocks a call takes

/-- The call took `n` blocks, or there were fewer and it took none. -/
structure Takes {α : Type} (n : Nat) (r : Except Err α) (fs fs' : SfsFs) :
    Prop where
  ok : r.isOk = true
    → fs.super.unusedBlocks = fs'.super.unusedBlocks + n
  error : r.isOk = false → fs.super.unusedBlocks < n
    ∧ fs'.super.unusedBlocks = fs.super.unusedBlocks
    ∧ ∀ b, fs'.freemap.bit b = fs.freemap.bit b

theorem Takes.none {α : Type} {a : α} : Takes 0 (.ok a) fs fs :=
  ⟨fun _ => rfl, fun h => by cases h⟩

/-- With no free block and one to take. -/
theorem Takes.full {α : Type} {e : Err} {n : Nat}
    (hfull : fs.super.unusedBlocks = 0) (hn : 0 < n) :
    Takes n (.error e : Except Err α) fs fs :=
  ⟨(fun h => by cases h), fun _ => ⟨by rw [hfull]; exact hn, rfl, fun _ => rfl⟩⟩

theorem sfsBmapGetSubNolock_takes {index : Nat} {r : Except Err (Nat × Nat)}
    (h : Inv held ⟨fs, files⟩) (hnode : fs.inodes i = some node)
    (hrun : sfsBmapGetSubNolock node.din.indirect index true fs
      = some (r, fs')) :
    Takes (if node.din.indirect = 0 then 2
        else if entryAt fs.disk node.din.indirect index = 0 then 1 else 0)
        r fs fs'
      ∧ ∀ ent ino, r = .ok (ent, ino) → ent ≠ 0 ∧ Used fs' ino := by
  unfold sfsBmapGetSubNolock at hrun
  rw [Call.bind_eq_some] at hrun
  obtain ⟨_, _, hassert, hrun⟩ := hrun
  rw [Call.assert_eq_some] at hassert
  obtain ⟨hlt, rfl⟩ := hassert
  dsimp only at hrun
  split at hrun
  case isTrue hind =>
      rw [Call.bind_eq_some] at hrun
      obtain ⟨buf, _, hread, hrun⟩ := hrun
      obtain ⟨rfl, hword⟩ := sfsRbuf_entry hread
      rw [hword] at hrun
      rw [if_neg hind]
      split at hrun
      case isTrue hfound =>
          have hne := hfound.resolve_right (fun h => by cases h)
          rw [Call.pure_eq_some] at hrun
          obtain ⟨rfl, rfl⟩ := hrun
          rw [if_neg hne]
          refine ⟨Takes.none, fun ent ino heq => ?_⟩
          cases heq
          exact ⟨hind, h.used_entry hnode hind hlt hne⟩
      case isFalse hnew =>
          rw [not_or, not_not] at hnew
          rw [if_pos hnew.1]
          rcases bmapAddEntry_run h hrun with ⟨ino, rfl, hused, hcount⟩
            | ⟨rfl, hfull, hsame, -⟩
          · refine ⟨⟨fun _ => hcount, fun h => by cases h⟩, fun ent ino' heq => ?_⟩
            cases heq
            exact ⟨hind, hused⟩
          · obtain rfl := hsame rfl
            exact ⟨Takes.full hfull Nat.one_pos, fun _ _ h => by cases h⟩
  case isFalse hind =>
      rw [not_not] at hind
      rw [if_pos hind]
      rw [if_neg (fun h => by cases h), Call.bind_eq_some] at hrun
      obtain ⟨o, fs₁, halloc, hrun⟩ := hrun
      rcases sfsBlockAlloc_spec h halloc with ⟨rfl, rfl, hfull⟩
        | ⟨ent, rfl, -, hent, -, -, hinv, -, -, -, -, -, hcount⟩
      · dsimp only at hrun
        rw [Call.pure_eq_some] at hrun
        obtain ⟨rfl, rfl⟩ := hrun
        exact ⟨Takes.full hfull Nat.two_pos, fun _ _ h => by cases h⟩
      · dsimp only at hrun
        rw [hind] at hrun
        rcases bmapAddEntry_run hinv hrun with ⟨ino, rfl, hused, hcount'⟩
          | ⟨rfl, hfull, -, hgiven⟩
        · refine ⟨⟨fun _ => by omega, fun h => by cases h⟩, fun ent' ino' heq => ?_⟩
          cases heq
          exact ⟨hent, hused⟩
        · -- the new indirect block is free again
          obtain ⟨hunused, hbits⟩ := hgiven hent
          obtain ⟨hfree, hbits₁, -⟩ := sfsBlockAlloc_bits halloc
          refine ⟨⟨(fun h => by cases h), fun _ => ⟨by omega, by omega,
            fun b => ?_⟩⟩, fun _ _ h => by cases h⟩
          rw [hbits, hbits₁]
          by_cases hb : b = ent
          · rw [hb, hfree]
            simp
          · simp [hb]

end Ucore.Sfs
