/-
Stores that make an inode refer to a block in hand, or give a block it
refers to back into the hand: to a direct slot, to the indirect slot, to an
entry of an indirect block.
-/
import Ucore.Sfs.Proofs.Blocks

namespace Ucore.Sfs

variable {fs fs' : SfsFs} {files : Finset Nat} {held : Finset Nat}
  {i b : Nat} {pos : Pos} {node : SfsInode}

-- ================================================ one target changes

/-- From `fs` to `fs'` position `p` of inode `i` came to refer to `b`, and
nothing else changed its target. -/
def SetTarget (files : Finset Nat) (i : Nat) (p : Pos) (b : Nat)
    (fs fs' : SfsFs) : Prop :=
  ∀ i' ∈ files, ∀ pos, target fs' i' pos
    = if i' = i ∧ pos = p then b else target fs i' pos

theorem SetTarget.install {p : Pos} (h : SetTarget files i p b fs fs')
    (hi : i ∈ files) (hzero : target fs i p = 0) (hb : b ≠ 0)
    (y : Nat × Pos) (c : Nat) : Refers ⟨fs', files⟩ y c
      ↔ Refers ⟨fs, files⟩ y c ∨ y = (i, p) ∧ c = b := by
  obtain ⟨i', pos⟩ := y
  unfold Refers
  dsimp only
  by_cases hy : i' = i ∧ pos = p
  · obtain ⟨rfl, rfl⟩ := hy
    rw [h i' hi, if_pos ⟨rfl, rfl⟩, hzero]
    constructor
    · rintro ⟨-, rfl, -⟩
      exact Or.inr ⟨rfl, rfl⟩
    · rintro (⟨-, rfl, hne⟩ | ⟨-, rfl⟩)
      · exact absurd rfl hne
      · exact ⟨hi, rfl, hb⟩
  · have hne : (i', pos) ≠ (i, p) := by
      intro heq
      exact hy ⟨congrArg Prod.fst heq, congrArg Prod.snd heq⟩
    constructor
    · rintro ⟨hin, ht, hc⟩
      rw [h i' hin, if_neg hy] at ht
      exact Or.inl ⟨hin, ht, hc⟩
    · rintro (⟨hin, ht, hc⟩ | ⟨heq, -⟩)
      · exact ⟨hin, by rw [h i' hin, if_neg hy]; exact ht, hc⟩
      · exact absurd heq hne

theorem SetTarget.remove {p : Pos} (h : SetTarget files i p 0 fs fs')
    (hinv : Inv held ⟨fs, files⟩) (hx : Refers ⟨fs, files⟩ (i, p) b)
    (y : Nat × Pos) (c : Nat) : Refers ⟨fs', files⟩ y c
      ↔ Refers ⟨fs, files⟩ y c ∧ c ≠ b := by
  obtain ⟨i', pos⟩ := y
  by_cases hy : i' = i ∧ pos = p
  · obtain ⟨rfl, rfl⟩ := hy
    constructor
    · rintro ⟨hin, ht, hc⟩
      dsimp only at hin ht
      rw [h i' hin, if_pos ⟨rfl, rfl⟩] at ht
      exact absurd ht.symm hc
    · rintro ⟨hy, hne⟩
      exact absurd (hy.2.1.symm.trans hx.2.1) hne
  · constructor
    · rintro ⟨hin, ht, hc⟩
      dsimp only at hin ht
      rw [h i' hin, if_neg hy] at ht
      have hold : Refers ⟨fs, files⟩ (i', pos) c := ⟨hin, ht, hc⟩
      refine ⟨hold, ?_⟩
      rintro rfl
      have heq := hinv.exact.inj hold hx
      exact hy ⟨congrArg Prod.fst heq, congrArg Prod.snd heq⟩
    · rintro ⟨⟨hin, ht, hc⟩, -⟩
      dsimp only at hin ht
      refine ⟨hin, ?_, hc⟩
      dsimp only
      rw [h i' hin, if_neg hy]
      exact ht

/-- The invariant where only references, inodes in memory and blocks that
are no inodes change. -/
theorem Inv.of_exact {held' : Finset Nat} (h : Inv held ⟨fs, files⟩)
    (hexact : Exact (Refers ⟨fs', files⟩) held' (Used fs))
    (hsuper : fs'.super = fs.super) (hfreemap : fs'.freemap = fs.freemap)
    (htype : (inodeOf fs' sfsBlknRoot).type = (inodeOf fs sfsBlknRoot).type)
    (hloaded : ∀ {i node}, fs'.inodes i = some node →
      i ∈ files ∧ node.din.Fits ∧ (node.dirty = false →
        SameMap node.din (DiskInode.ofBytes (fs'.disk i)))) :
    Inv held' ⟨fs', files⟩ :=
  ⟨hexact.congr (fun _ _ => Iff.rfl) (used_congr hsuper hfreemap),
    h.map.congr hsuper hfreemap, h.files_pos, h.root,
    htype.trans h.root_dir, hloaded⟩

-- ================================================== stores to memory

/-- The file system after a store to an inode in memory. -/
def withNode (fs : SfsFs) (i : Nat) (node : SfsInode) : SfsFs :=
  { fs with inodes := Function.update fs.inodes i (some node) }

theorem getSin_run {n : SfsInode} (h : getSin i fs = some (n, fs')) :
    fs.inodes i = some n ∧ fs' = fs := by
  unfold getSin at h
  simp only [Call.bind_eq_some, Call.get_eq_some, Call.ofOption_eq_some] at h
  obtain ⟨_, _, ⟨rfl, rfl⟩, hnode, rfl⟩ := h
  exact ⟨hnode, rfl⟩

theorem setSin_run {u : Unit} (h : setSin i node fs = some (u, fs')) :
    fs' = withNode fs i node := by
  unfold setSin at h
  rwa [Call.modify_eq_some] at h

theorem withNode_self : (withNode fs i node).inodes i = some node :=
  Function.update_self i _ _

theorem withNode_ne {i' : Nat} (h : i' ≠ i) :
    (withNode fs i node).inodes i' = fs.inodes i' :=
  Function.update_of_ne h _ _

theorem inodeOf_withNode (i' : Nat) : inodeOf (withNode fs i node) i'
    = if i' = i then node.din else inodeOf fs i' := by
  by_cases h : i' = i
  · rw [if_pos h, h]
    exact inodeOf_loaded withNode_self
  · rw [if_neg h]
    exact inodeOf_congr (withNode_ne h) fun _ => rfl

/-- The inodes in memory after a store to one of them. -/
theorem Inv.loaded_withNode (h : Inv held ⟨fs, files⟩) (hi : i ∈ files)
    (hfits : node.din.Fits) (hclean : node.dirty = false →
      SameMap node.din (DiskInode.ofBytes (fs.disk i))) {i' : Nat}
    {node' : SfsInode} (h' : (withNode fs i node).inodes i' = some node') :
    i' ∈ files ∧ node'.din.Fits ∧ (node'.dirty = false →
      SameMap node'.din (DiskInode.ofBytes (fs.disk i'))) := by
  by_cases heq : i' = i
  · subst heq
    rw [withNode_self] at h'
    cases h'
    exact ⟨hi, hfits, hclean⟩
  · rw [withNode_ne heq] at h'
    exact h.loaded h'

/-- A store that changes nothing an inode maps. -/
theorem Inv.setMap (h : Inv held ⟨fs, files⟩) (hi : i ∈ files)
    (hmap : SameMap node.din (inodeOf fs i)) (hfits : node.din.Fits)
    (hclean : node.dirty = false →
      SameMap node.din (DiskInode.ofBytes (fs.disk i))) :
    Inv held ⟨withNode fs i node, files⟩
      ∧ ∀ i' pos, target (withNode fs i node) i' pos = target fs i' pos := by
  have hsame : ∀ i', SameMap (inodeOf (withNode fs i node) i')
      (inodeOf fs i') := by
    intro i'
    rw [inodeOf_withNode]
    split
    case isTrue heq => exact heq ▸ hmap
    case isFalse => exact SameMap.refl _
  have htarget : ∀ i' pos, target (withNode fs i node) i' pos
      = target fs i' pos := fun i' =>
    target_congr (hsame i') fun _ _ => rfl
  refine ⟨h.of_exact (h.exact.congr (refers_congr fun i' _ => htarget i')
    fun _ => Iff.rfl) rfl rfl (hsame _).type ?_, htarget⟩
  exact fun h' => h.loaded_withNode hi hfits hclean h'

/-- The inode with another block in a direct slot. -/
def SfsInode.setDirect (node : SfsInode) (k : Fin sfsNdirect) (b : Nat) :
    SfsInode :=
  { node with
    din := { node.din with direct := Function.update node.din.direct k b }
    dirty := true }

theorem DiskInode.Fits.setDirect (h : node.din.Fits) {k : Fin sfsNdirect}
    (hb : b < 256 ^ 4) : (node.setDirect k b).din.Fits := by
  refine ⟨h.size, h.type, h.nlinks, h.blocks, fun j => ?_, h.indirect⟩
  show Function.update node.din.direct k b j < 256 ^ 4
  by_cases hj : j = k
  · rw [hj, Function.update_self]
    exact hb
  · rw [Function.update_of_ne hj]
    exact h.direct j

/-- A store to a direct slot changes its target only. -/
theorem setTarget_direct (hnode : fs.inodes i = some node)
    (k : Fin sfsNdirect) : SetTarget files i (.direct k) b fs
      (withNode fs i (node.setDirect k b)) := by
  intro i' _ pos
  by_cases hi : i' = i
  · subst hi
    have hold := inodeOf_loaded hnode
    have hnew : inodeOf (withNode fs i' (node.setDirect k b)) i'
        = (node.setDirect k b).din := inodeOf_loaded withNode_self
    cases pos with
    | self => rw [if_neg fun heq => (by cases heq.2)]; rfl
    | direct j =>
        show (inodeOf _ i').direct j = if _ then b else (inodeOf fs i').direct j
        rw [hold, hnew]
        show Function.update node.din.direct k b j = _
        by_cases hj : j = k
        · rw [hj, Function.update_self, if_pos ⟨rfl, rfl⟩]
        · rw [Function.update_of_ne hj, if_neg]
          rintro ⟨-, heq⟩
          cases heq
          exact hj rfl
    | indirect =>
        rw [if_neg fun heq => (by cases heq.2)]
        show (inodeOf _ i').indirect = (inodeOf fs i').indirect
        rw [hold, hnew]
        rfl
    | entry j =>
        rw [if_neg fun heq => (by cases heq.2), target_entry, hnew,
          target_entry, hold]
        rfl
  · rw [if_neg fun heq => hi heq.1]
    have hsame : inodeOf (withNode fs i (node.setDirect k b)) i'
        = inodeOf fs i' := by
      rw [inodeOf_withNode, if_neg hi]
    exact target_congr (SameMap.of_eq hsame) (fun _ _ => rfl) pos

/-- A block in hand goes to an empty direct slot. -/
theorem Inv.installDirect (h : Inv (insert b held) ⟨fs, files⟩)
    (hb : b ∉ held) (hnode : fs.inodes i = some node) {k : Fin sfsNdirect}
    (hzero : node.din.direct k = 0) :
    Inv held ⟨withNode fs i (node.setDirect k b), files⟩ := by
  obtain ⟨hi, hfits, -⟩ := h.loaded hnode
  have hused := h.exact.used_iff.mpr (Or.inr (Finset.mem_insert_self b held))
  have hb0 : b ≠ 0 := by
    intro hb0
    have hlo := hused.2.2
    unfold reservedBlocks sfsBlknFreemap sfsBlknRoot at hlo
    omega
  have hlt : b < 256 ^ 4 := by
    have hblocks := h.map.blocks_lt
    have h1 := hused.1
    omega
  have hempty : target fs i (.direct k) = 0 := by
    show (inodeOf fs i).direct k = 0
    rw [inodeOf_loaded hnode]
    exact hzero
  have hset : SetTarget files i (.direct k) b fs
      (withNode fs i (node.setDirect k b)) := setTarget_direct hnode k
  refine h.of_exact (h.exact.install hb (hset.install hi hempty hb0)) rfl rfl
    ?_ ?_
  · rw [inodeOf_withNode]
    split
    case isTrue heq =>
        rw [heq, inodeOf_loaded hnode]
        rfl
    case isFalse => rfl
  · exact fun h' => h.loaded_withNode hi (hfits.setDirect hlt)
      (fun h => by cases h) h'

/-- A direct slot gives its block into the hand. -/
theorem Inv.clearDirect (h : Inv held ⟨fs, files⟩)
    (hnode : fs.inodes i = some node) {k : Fin sfsNdirect}
    (hne : node.din.direct k ≠ 0) :
    Inv (insert (node.din.direct k) held)
      ⟨withNode fs i (node.setDirect k 0), files⟩ := by
  obtain ⟨hi, hfits, -⟩ := h.loaded hnode
  have hrefers : Refers ⟨fs, files⟩ (i, .direct k) (node.din.direct k) := by
    refine ⟨hi, ?_, hne⟩
    show (inodeOf fs i).direct k = _
    rw [inodeOf_loaded hnode]
  have hset : SetTarget files i (.direct k) 0 fs
      (withNode fs i (node.setDirect k 0)) := setTarget_direct hnode k
  refine h.of_exact (h.exact.remove hrefers (hset.remove h hrefers)) rfl rfl
    ?_ ?_
  · rw [inodeOf_withNode]
    split
    case isTrue heq =>
        rw [heq, inodeOf_loaded hnode]
        rfl
    case isFalse => rfl
  · exact fun h' =>
      h.loaded_withNode hi (hfits.setDirect (by decide)) (fun h => by cases h) h'

/-- The inode with an indirect block. -/
def SfsInode.setIndirect (node : SfsInode) (ent : Nat) : SfsInode :=
  { node with din := { node.din with indirect := ent }, dirty := true }

/-- Blocks in hand are valid block numbers. -/
theorem Inv.held_range (h : Inv held ⟨fs, files⟩) (hb : b ∈ held) :
    b ≠ 0 ∧ b < 256 ^ 4 := by
  obtain ⟨hlt, -, hlo⟩ := h.exact.used_iff.mpr (Or.inr hb)
  have hblocks := h.map.blocks_lt
  dsimp only at hlt hlo hblocks
  unfold reservedBlocks sfsBlknFreemap sfsBlknRoot at hlo
  omega

/-- The targets of an inode that got an indirect block with one entry. -/
theorem target_setIndirect {ent ino : Nat} {j : Fin sfsBlkNentry}
    (hnode : fs.inodes i = some node) (hent : ent ≠ 0)
    (hzero : node.din.indirect = 0)
    (hentries : ∀ j' : Fin sfsBlkNentry,
      entryAt fs.disk ent j' = if j' = j then ino else 0)
    (i' : Nat) (pos : Pos) :
    target (withNode fs i (node.setIndirect ent)) i' pos
      = if i' = i ∧ pos = .indirect then ent
        else if i' = i ∧ pos = .entry j then ino
        else target fs i' pos := by
  by_cases hi : i' = i
  · subst hi
    have hold := inodeOf_loaded hnode
    have hnew : inodeOf (withNode fs i' (node.setIndirect ent)) i'
        = (node.setIndirect ent).din := inodeOf_loaded withNode_self
    cases pos with
    | self =>
        rw [if_neg fun heq => (by cases heq.2), if_neg fun heq => (by cases heq.2)]
        rfl
    | direct k =>
        rw [if_neg fun heq => (by cases heq.2), if_neg fun heq => (by cases heq.2)]
        show (inodeOf _ i').direct k = (inodeOf fs i').direct k
        rw [hold, hnew]
        rfl
    | indirect =>
        rw [if_pos ⟨rfl, rfl⟩]
        show (inodeOf _ i').indirect = ent
        rw [hnew]
        rfl
    | entry j' =>
        have hind : (node.setIndirect ent).din.indirect = ent := rfl
        rw [if_neg fun heq => (by cases heq.2), target_entry, hnew, hind,
          if_neg hent, target_entry, hold, if_pos hzero]
        show entryAt fs.disk ent j' = _
        rw [hentries]
        by_cases hj : j' = j
        · rw [if_pos hj, if_pos ⟨rfl, by rw [hj]⟩]
        · rw [if_neg hj, if_neg]
          rintro ⟨-, heq⟩
          cases heq
          exact hj rfl
  · rw [if_neg fun heq => hi heq.1, if_neg fun heq => hi heq.1]
    have hsame : inodeOf (withNode fs i (node.setIndirect ent)) i'
        = inodeOf fs i' := by
      rw [inodeOf_withNode, if_neg hi]
    exact target_congr (SameMap.of_eq hsame) (fun _ _ => rfl) pos

/-- An indirect block in hand, whose only entry is a block in hand, goes to
an inode without one. -/
theorem Inv.installIndirect {ent ino : Nat} {j : Fin sfsBlkNentry}
    (h : Inv (insert ent (insert ino held)) ⟨fs, files⟩)
    (hino : ino ∉ held) (hne : ent ∉ insert ino held)
    (hnode : fs.inodes i = some node) (hzero : node.din.indirect = 0)
    (hentries : ∀ j' : Fin sfsBlkNentry,
      entryAt fs.disk ent j' = if j' = j then ino else 0) :
    Inv held ⟨withNode fs i (node.setIndirect ent), files⟩ := by
  obtain ⟨hi, hfits, -⟩ := h.loaded hnode
  obtain ⟨hent, hentlt⟩ := h.held_range (Finset.mem_insert_self ent _)
  obtain ⟨hino0, -⟩ := h.held_range
    (Finset.mem_insert_of_mem (Finset.mem_insert_self ino _))
  have htarget := target_setIndirect hnode hent hzero hentries
  have hold : ∀ {c pos}, pos = .indirect ∨ pos = .entry j →
      ¬ Refers ⟨fs, files⟩ (i, pos) c := by
    rintro c pos hpos ⟨-, ht, hc⟩
    refine hc (ht.symm.trans ?_)
    rcases hpos with rfl | rfl
    · show (inodeOf fs i).indirect = 0
      rw [inodeOf_loaded hnode, hzero]
    · show target fs i (.entry j) = 0
      rw [target_entry, inodeOf_loaded hnode, if_pos hzero]
  have hrefers : ∀ y c, Refers ⟨withNode fs i (node.setIndirect ent), files⟩ y c
      ↔ (Refers ⟨fs, files⟩ y c ∨ y = (i, .indirect) ∧ c = ent)
        ∨ y = (i, .entry j) ∧ c = ino := by
    rintro ⟨i', pos⟩ c
    unfold Refers
    dsimp only
    rw [htarget]
    by_cases hind : i' = i ∧ pos = .indirect
    · obtain ⟨rfl, rfl⟩ := hind
      rw [if_pos ⟨rfl, rfl⟩]
      constructor
      · rintro ⟨-, rfl, -⟩
        exact Or.inl (Or.inr ⟨rfl, rfl⟩)
      · rintro ((hold' | ⟨-, rfl⟩) | ⟨heq, -⟩)
        · exact absurd hold' (hold (Or.inl rfl))
        · exact ⟨hi, rfl, hent⟩
        · cases heq
    · rw [if_neg hind]
      by_cases hentry : i' = i ∧ pos = .entry j
      · obtain ⟨rfl, rfl⟩ := hentry
        rw [if_pos ⟨rfl, rfl⟩]
        constructor
        · rintro ⟨-, rfl, -⟩
          exact Or.inr ⟨rfl, rfl⟩
        · rintro ((hold' | ⟨heq, -⟩) | ⟨-, rfl⟩)
          · exact absurd hold' (hold (Or.inr rfl))
          · cases heq
          · exact ⟨hi, rfl, hino0⟩
      · rw [if_neg hentry]
        constructor
        · exact fun hold' => Or.inl (Or.inl hold')
        · rintro ((hold' | ⟨heq, -⟩) | ⟨heq, -⟩)
          · exact hold'
          · exact absurd ⟨congrArg Prod.fst heq, congrArg Prod.snd heq⟩ hind
          · exact absurd ⟨congrArg Prod.fst heq, congrArg Prod.snd heq⟩
              hentry
  -- first the indirect slot, then the entry
  have h₁ : Exact (fun y c => Refers ⟨fs, files⟩ y c
      ∨ y = (i, .indirect) ∧ c = ent) (insert ino held) (Used fs) :=
    h.exact.install hne fun _ _ => Iff.rfl
  have h₂ : Exact (Refers ⟨withNode fs i (node.setIndirect ent), files⟩) held
      (Used fs) := h₁.install hino hrefers
  refine h.of_exact h₂ rfl rfl ?_ ?_
  · rw [inodeOf_withNode]
    split
    case isTrue heq =>
        rw [heq, inodeOf_loaded hnode]
        rfl
    case isFalse => rfl
  · have hfits' : (node.setIndirect ent).din.Fits :=
      ⟨hfits.size, hfits.type, hfits.nlinks, hfits.blocks, hfits.direct,
        hentlt⟩
    intro i' node' h'
    exact h.loaded_withNode hi hfits' (fun h => by cases h) h'

-- ========================================= stores to indirect blocks

/-- The file system after a store to an entry of an indirect block. -/
def withEntry (fs : SfsFs) (ent j w : Nat) : SfsFs :=
  { fs with
    disk := Function.update fs.disk ent
      (storeBytes (fs.disk ent) (wordByte w) 4 (j * 4)) }

theorem withEntry_ne {ent j w d : Nat} (h : d ≠ ent) :
    (withEntry fs ent j w).disk d = fs.disk d :=
  Function.update_of_ne h _ _

/-- The entries after a store to one of them. -/
theorem entryAt_withEntry {ent j w : Nat} (hw : w < 256 ^ 4) (j' : Nat) :
    entryAt (withEntry fs ent j w).disk ent j'
      = if j' = j then w else entryAt fs.disk ent j' := by
  have hblock : (withEntry fs ent j w).disk ent
      = storeBytes (fs.disk ent) (wordByte w) 4 (j * 4) :=
    Function.update_self ent _ _
  rw [entryAt, hblock]
  by_cases hj : j' = j
  · subst hj
    rw [if_pos rfl]
    refine getWord_wordByte hw fun k hk => ?_
    rw [storeBytes, if_pos (by omega), Nat.add_sub_cancel_left]
  · rw [if_neg hj]
    refine getWord_congr fun k hk => ?_
    rw [storeBytes, if_neg]
    omega

/-- An indirect block is no inode. -/
theorem Inv.ne_indirect_block {i' : Nat} (h : Inv held ⟨fs, files⟩)
    (hi' : i' ∈ files) (hrefers : Refers ⟨fs, files⟩ (i, .indirect) b) :
    i' ≠ b := by
  rintro rfl
  have hpos := congrArg Prod.snd (h.exact.inj (h.refers_self hi') hrefers)
  cases hpos

/-- A store to an entry of an indirect block is a store to no inode's block
and to no reserved one. -/
theorem Inv.quiet_entry (h : Inv held ⟨fs, files⟩) (hi : i ∈ files)
    (hne : (inodeOf fs i).indirect ≠ 0) (j w : Nat) :
    Quiet files fs (withEntry fs (inodeOf fs i).indirect j w) := by
  have hrefers : Refers ⟨fs, files⟩ (i, .indirect) (inodeOf fs i).indirect :=
    Inv.refers_indirect hi hne
  obtain ⟨-, -, hlo⟩ := h.exact.used_iff.2 (Or.inl ⟨_, hrefers⟩)
  refine ⟨fun {b} hb => withEntry_ne ?_, rfl, Or.inr ⟨rfl, rfl, rfl⟩⟩
  rcases hb with hb | hb
  · exact h.ne_indirect_block hb hrefers
  · rcases hlo with hlo | hlo
    · have hlo' : reservedBlocks fs.super ≤ (inodeOf fs i).indirect := hlo
      omega
    · exact absurd hlo (h.ne_indirect_block h.root hrefers).symm

/-- A store to an entry changes its target only: no other inode has the
indirect block, and it is no inode. -/
theorem setTarget_entry (h : Inv held ⟨fs, files⟩) (hi : i ∈ files)
    (hind : (inodeOf fs i).indirect ≠ 0) (j : Fin sfsBlkNentry)
    (hb : b < 256 ^ 4) : SetTarget files i (.entry j) b fs
      (withEntry fs (inodeOf fs i).indirect j b) := by
  have hrefers : Refers ⟨fs, files⟩ (i, .indirect) (inodeOf fs i).indirect :=
    Inv.refers_indirect hi hind
  have hsame : ∀ i' ∈ files,
      inodeOf (withEntry fs (inodeOf fs i).indirect j b) i' = inodeOf fs i' :=
    fun i' hi' => inodeOf_congr rfl fun _ => withEntry_ne
      (h.ne_indirect_block hi' hrefers)
  intro i' hi' pos
  by_cases hpos : ∃ j', pos = .entry j'
  · obtain ⟨j', rfl⟩ := hpos
    by_cases heq : i' = i
    · subst heq
      rw [target_entry, hsame i' hi', if_neg hind, entryAt_withEntry hb]
      by_cases hj : j' = j
      · rw [if_pos (by rw [hj]), if_pos ⟨rfl, by rw [hj]⟩]
      · have hpos : ¬ (i' = i' ∧ Pos.entry j' = Pos.entry j) := by
          rintro ⟨-, heq⟩
          cases heq
          exact hj rfl
        rw [if_neg fun hv => hj (Fin.ext hv), if_neg hpos, target_entry,
          if_neg hind]
    · have hpos : ¬ (i' = i ∧ Pos.entry j' = Pos.entry j) := fun hboth =>
        heq hboth.1
      rw [if_neg hpos, target_entry, target_entry, hsame i' hi']
      by_cases hzero : (inodeOf fs i').indirect = 0
      · rw [if_pos hzero, if_pos hzero]
      · rw [if_neg hzero, if_neg hzero, entryAt, entryAt, withEntry_ne]
        intro hsameind
        have hother : Refers ⟨fs, files⟩ (i', .indirect)
            (inodeOf fs i').indirect := Inv.refers_indirect hi' hzero
        rw [hsameind] at hother
        exact heq (congrArg Prod.fst (h.exact.inj hother hrefers))
  · rw [if_neg fun hboth => hpos ⟨j, hboth.2⟩]
    cases pos with
    | self => rfl
    | direct k =>
        show (inodeOf _ i').direct k = (inodeOf fs i').direct k
        rw [hsame i' hi']
    | indirect =>
        show (inodeOf _ i').indirect = (inodeOf fs i').indirect
        rw [hsame i' hi']
    | entry j' => exact absurd ⟨j', rfl⟩ hpos

/-- The invariant after a store to an entry, from its references. -/
theorem Inv.of_entry {held' : Finset Nat} (h : Inv held ⟨fs, files⟩)
    (hi : i ∈ files) (hind : (inodeOf fs i).indirect ≠ 0) {j : Nat}
    (hexact : Exact (Refers ⟨withEntry fs (inodeOf fs i).indirect j b, files⟩)
      held' (Used fs)) :
    Inv held' ⟨withEntry fs (inodeOf fs i).indirect j b, files⟩ := by
  have hrefers : Refers ⟨fs, files⟩ (i, .indirect) (inodeOf fs i).indirect :=
    Inv.refers_indirect hi hind
  have hne : ∀ {i'}, i' ∈ files → i' ≠ (inodeOf fs i).indirect :=
    fun hi' => h.ne_indirect_block hi' hrefers
  refine h.of_exact hexact rfl rfl ?_ ?_
  · exact congrArg DiskInode.type
      (inodeOf_congr rfl fun _ => withEntry_ne (hne h.root))
  · intro i' node' h'
    obtain ⟨hin, hfits, hclean⟩ := h.loaded (i := i') h'
    refine ⟨hin, hfits, fun hd => ?_⟩
    rw [withEntry_ne (hne hin)]
    exact hclean hd

/-- A block in hand goes to an empty entry. -/
theorem Inv.installEntry (h : Inv (insert b held) ⟨fs, files⟩)
    (hb : b ∉ held) (hi : i ∈ files) (hind : (inodeOf fs i).indirect ≠ 0)
    {j : Fin sfsBlkNentry}
    (hzero : entryAt fs.disk (inodeOf fs i).indirect j = 0) :
    Inv held ⟨withEntry fs (inodeOf fs i).indirect j b, files⟩ := by
  obtain ⟨hb0, hlt⟩ := h.held_range (Finset.mem_insert_self b held)
  have hempty : target fs i (.entry j) = 0 := by
    rw [target_entry, if_neg hind, hzero]
  exact h.of_entry hi hind (h.exact.install hb
    ((setTarget_entry h hi hind j hlt).install hi hempty hb0))

/-- An entry gives its block into the hand. -/
theorem Inv.clearEntry (h : Inv held ⟨fs, files⟩) (hi : i ∈ files)
    (hind : (inodeOf fs i).indirect ≠ 0) {j : Fin sfsBlkNentry}
    (hne : entryAt fs.disk (inodeOf fs i).indirect j ≠ 0) :
    Inv (insert (entryAt fs.disk (inodeOf fs i).indirect j) held)
      ⟨withEntry fs (inodeOf fs i).indirect j 0, files⟩ := by
  have hrefers : Refers ⟨fs, files⟩ (i, .entry j)
      (entryAt fs.disk (inodeOf fs i).indirect j) := by
    refine ⟨hi, ?_, hne⟩
    rw [target_entry, if_neg hind]
  exact h.of_entry hi hind (h.exact.remove hrefers
    ((setTarget_entry h hi hind j (by decide)).remove h hrefers))

end Ucore.Sfs
