/-
Blocks stay accounted for over every run from a consistent image.
-/
import Ucore.Lib.Run
import Ucore.Sfs.Proofs.Reclaim
import Mathlib.Order.Interval.Finset.Nat

namespace Ucore.Sfs

variable {v v' : Volume} {op : Op} {ops : List Op} {b : Nat}

-- ============================================================ images

theorem Consistent.sound (h : Consistent v) (strict : Prop) :
    Sound strict v.files v.fs := by
  have hroot : v.fs.freemap.bit sfsBlknRoot = false := by
    by_contra hfree
    rw [Bool.not_eq_false] at hfree
    have hrefers : Refers v (sfsBlknRoot, .self) sfsBlknRoot :=
      ⟨h.root, rfl, by decide⟩
    have hlt := Nat.lt_of_lt_of_le (h.refers_range hrefers).1
      (blocks_le_freemapBits v.fs.super)
    have hlo := (h.free_range (mem_freeBits.mpr ⟨hlt, hfree⟩)).1
    unfold reservedBlocks sfsBlknFreemap sfsBlknRoot at hlo
    omega
  have hexact : Exact (Refers v) ∅ (Used v.fs) := by
    refine ⟨h.refers_once, fun _ => Finset.notMem_empty _, ?_⟩
    intro b
    constructor
    · rintro ⟨hlt, hbit, hlo | rfl⟩
      · exact Or.inl ((h.used_iff hlo hlt).mp hbit)
      · exact Or.inl ⟨(sfsBlknRoot, .self), h.root, rfl, by decide⟩
    · rintro (⟨x, hx⟩ | hin)
      · obtain ⟨hlt, hlo | rfl⟩ := h.refers_range hx
        · exact ⟨hlt, (h.used_iff hlo hlt).mpr ⟨x, hx⟩, Or.inl hlo⟩
        · have hb : sfsBlknRoot = b := hx.2.1
          subst hb
          exact ⟨hlt, hroot, Or.inr rfl⟩
      · cases hin
  refine ⟨⟨hexact, ⟨h.nbits, h.nwords, h.blocks_lt, h.free_range,
    h.unused_eq⟩, h.files_pos, h.root, h.root_dir, ?_⟩, ?_⟩
  · intro i node hnode
    obtain ⟨hin, hfits, hclean⟩ := h.loaded hnode
    exact ⟨hin, hfits, fun hd => SameMap.of_eq (hclean hd)⟩
  · exact fun hin _ => h.covered hin

theorem Sound.accounted (h : Sound False v.files v.fs) : Accounted v := by
  have hexact : Exact (Refers v) ∅ (Used v.fs) := h.inv.exact
  refine ⟨fun {b} hlo hlt => ?_, fun {b} hfree x hx => ?_, h.inv.map.unused_eq,
    fun {x b} hx => ?_, fun {ino fs'} halloc => ?_⟩
  · rw [← hexact.unique_iff]
    exact ⟨fun hbit => ⟨hlt, hbit, Or.inl hlo⟩, fun hused => hused.2.1⟩
  · have hused := hexact.used_iff.mpr (Or.inl ⟨x, hx⟩)
    have hbit := hused.2.1
    rw [(mem_freeBits.mp hfree).2] at hbit
    cases hbit
  · have hused := hexact.used_iff.mpr (Or.inl ⟨x, hx⟩)
    exact ⟨hused.1, hused.2.2⟩
  · rcases sfsBlockAlloc_spec h.inv halloc with
      ⟨heq, -⟩ | ⟨ino', heq, -, -, hlo, hlt, -⟩
    · cases heq
    · cases heq
      exact ⟨hlo, hlt⟩

-- ============================================================== runs

theorem Sound.step (h : Sound False v.files v.fs) (hstep : Step v op v') :
    Sound False v'.files v'.fs := by
  cases hstep with
  | call hload hexec =>
      cases op with
      | loadInode ino =>
          obtain ⟨⟨_, _⟩, hrun, rfl⟩ := Option.map_eq_some_iff.mp hexec
          exact (sfsLoadInode_spec h (hload ino rfl) hrun).1
      | refInc sin =>
          obtain ⟨⟨_, _⟩, hrun, rfl⟩ := Option.map_eq_some_iff.mp hexec
          exact (inodeRefInc_spec h hrun).1
      | refDec sin =>
          obtain ⟨⟨_, fs'⟩, hrun, rfl⟩ := Option.map_eq_some_iff.mp hexec
          obtain ⟨-, node, hnode, hout⟩ := inodeRefDec_spec h
            (fun h => by cases h) hrun
          have hdin := inodeOf_loaded hnode
          rcases hout with ⟨hgone, hnone⟩ | ⟨h', node', hnode'⟩
          · have hfiles : filesAfter v fs' (.refDec sin)
                = filesWithout v.files sin node.din := by
              simp [filesAfter, filesWithout, hnone, hdin]
            show Sound False (filesAfter v fs' (.refDec sin)) fs'
            rw [hfiles]
            exact hgone
          · have hfiles : filesAfter v fs' (.refDec sin) = v.files := by
              simp [filesAfter, hnode']
            show Sound False (filesAfter v fs' (.refDec sin)) fs'
            rw [hfiles]
            exact h'
      | fsync sin =>
          obtain ⟨⟨_, _⟩, hrun, rfl⟩ := Option.map_eq_some_iff.mp hexec
          exact (sfsFsync_spec h hrun).1
      | bmapLoad sin index =>
          obtain ⟨⟨_, _⟩, hrun, rfl⟩ := Option.map_eq_some_iff.mp hexec
          exact (sfsBmapLoadNolock_spec h hrun).1
      | truncfile sin len =>
          obtain ⟨⟨_, _⟩, hrun, rfl⟩ := Option.map_eq_some_iff.mp hexec
          exact (vopTruncate_spec h hrun).1

theorem Sound.run (h : Sound False v.files v.fs) (hrun : Run Step v ops v') :
    Sound False v'.files v'.fs :=
  hrun.invariant (I := fun v => Sound False v.files v.fs)
    (fun h hstep => h.step hstep) h

/-- In every run from a consistent image the blocks stay accounted for. -/
theorem blocks_accounted (h : Consistent v) (hrun : Run Step v ops v') :
    Accounted v' :=
  ((h.sound False).run hrun).accounted

-- ========================================================== an image

/-- A directory and an open file without links, both empty. -/
def smallInode (type nlinks : Nat) : DiskInode where
  size := 0
  type := type
  nlinks := nlinks
  blocks := 0
  direct _ := 0
  indirect := 0

theorem smallInode_fits {type nlinks : Nat} (htype : type < 256 ^ 2)
    (hlinks : nlinks < 256 ^ 2) : (smallInode type nlinks).Fits := by
  have hzero : ∀ n, 0 < 256 ^ n := fun n => Nat.pow_pos (by decide)
  exact ⟨hzero 4, htype, hlinks, hzero 4, fun _ => hzero 4, hzero 4⟩

/-- A volume of eight blocks: the root, and an open file that was
unlinked. -/
def smallVolume : Volume where
  fs :=
    { super := { blocks := 8, unusedBlocks := 4 }
      freemap :=
        { nbits := 32768
          nwords := 1024
          map := fun ix => if ix = 0 then 0xF0#32 else 0#32 }
      superDirty := false
      disk := fun d => if d = 1 then (smallInode sfsTypeDir 1).toBytes
        else fun _ => 0
      inodes := fun i => if i = 3 then
        some { din := smallInode sfsTypeFile 0, dirty := true,
               reclaimCount := 1, refCount := 1 }
        else none }
  files := {1, 3}

/-- The free map of a volume with its first four blocks in use. -/
structure PlainMap (super : SfsSuper) (freemap : Bitmap) : Prop where
  nbits : freemap.nbits = sfsFreemapBits super
  nwords : freemap.nwords * wordBits = sfsFreemapBits super
  one : sfsFreemapBlocks super = 1
  blocks : 4 ≤ super.blocks ∧ super.blocks < 2 ^ 32
  bit : ∀ b, freemap.bit b = true ↔ 4 ≤ b ∧ b < super.blocks
  unused : super.unusedBlocks = super.blocks - 4

/-- A volume with an empty root and an empty file that is open. -/
def plainVolume (nlinks : Nat) (super : SfsSuper) (freemap : Bitmap) :
    Volume where
  fs :=
    { super := super
      freemap := freemap
      superDirty := false
      disk := fun d => if d = 1 then (smallInode sfsTypeDir 1).toBytes
        else fun _ => 0
      inodes := fun i => if i = 3 then
        some { din := smallInode sfsTypeFile nlinks, dirty := true,
               reclaimCount := 1, refCount := 1 }
        else none }
  files := {1, 3}

section

variable {nlinks : Nat} {super : SfsSuper} {freemap : Bitmap}

theorem PlainMap.freeBits (h : PlainMap super freemap) :
    freeBits (plainVolume nlinks super freemap).fs
      = Finset.Ico 4 super.blocks := by
  ext b
  rw [mem_freeBits, Finset.mem_Ico]
  show b < sfsFreemapBits super ∧ freemap.bit b = true ↔ _
  rw [h.bit]
  have hle := blocks_le_freemapBits super
  omega

theorem plainVolume_inodes {i : Nat}
    (hi : i ∈ (plainVolume nlinks super freemap).files) :
    (i = 1 ∨ i = 3)
      ∧ (inodeOf (plainVolume nlinks super freemap).fs i).direct
        = (fun _ => 0)
      ∧ (inodeOf (plainVolume nlinks super freemap).fs i).indirect = 0 := by
  have hroot : inodeOf (plainVolume nlinks super freemap).fs 1
      = smallInode sfsTypeDir 1 :=
    DiskInode.ofBytes_toBytes (smallInode_fits (by decide) (by decide))
  have hor : i = 1 ∨ i = 3 := by
    simpa [plainVolume] using hi
  rcases hor with rfl | rfl
  · exact ⟨Or.inl rfl, by rw [hroot]; rfl, by rw [hroot]; rfl⟩
  · exact ⟨Or.inr rfl, rfl, rfl⟩

theorem plainVolume_refers {x : Nat × Pos}
    (h : Refers (plainVolume nlinks super freemap) x b) :
    x = (b, .self) ∧ (b = 1 ∨ b = 3) := by
  obtain ⟨i, pos⟩ := x
  obtain ⟨hin, ht, hb⟩ := h
  dsimp only at hin ht
  obtain ⟨hor, hdirect, hindirect⟩ := plainVolume_inodes hin
  cases pos with
  | self =>
      have hib : i = b := ht
      subst hib
      exact ⟨rfl, hor⟩
  | direct k => exact absurd (ht.symm.trans (congrFun hdirect k)) hb
  | indirect => exact absurd (ht.symm.trans hindirect) hb
  | entry j =>
      rw [target_entry, if_pos hindirect] at ht
      exact absurd ht.symm hb

theorem plainVolume_consistent (nlinks : Nat) (h : PlainMap super freemap)
    (hlinks : nlinks < 256 ^ 2) :
    Consistent (plainVolume nlinks super freemap) := by
  have hreserved : reservedBlocks super = 3 := by
    unfold reservedBlocks
    rw [h.one]
    rfl
  have hblocks := h.blocks
  constructor
  case nbits => exact h.nbits
  case nwords => exact h.nwords
  case blocks_lt => exact hblocks.2
  case free_range =>
    intro b hb
    rw [h.freeBits, Finset.mem_Ico] at hb
    show reservedBlocks super ≤ b ∧ b < super.blocks
    omega
  case unused_eq =>
    rw [h.freeBits, Nat.card_Ico]
    exact h.unused
  case used_iff =>
    intro b hlo hlt
    have hlo' : reservedBlocks super ≤ b := hlo
    have hlt' : b < super.blocks := hlt
    show freemap.bit b = false ↔ _
    rw [Bool.eq_false_iff, ne_eq, h.bit]
    constructor
    · intro hused
      have hb : b = 3 := by omega
      subst hb
      exact ⟨(3, .self), Finset.mem_insert_of_mem
        (Finset.mem_singleton_self 3), rfl, by decide⟩
    · rintro ⟨x, hx⟩
      have hor := (plainVolume_refers hx).2
      omega
  case refers_once =>
    exact fun hx hy => (plainVolume_refers hx).1.trans
      (plainVolume_refers hy).1.symm
  case refers_range =>
    intro x b hx
    show b < super.blocks ∧ (reservedBlocks super ≤ b ∨ _)
    obtain ⟨rfl, rfl | rfl⟩ := plainVolume_refers hx
    · exact ⟨by omega, Or.inr rfl⟩
    · exact ⟨by omega, Or.inl (by omega)⟩
  case files_pos =>
    intro i hi
    rcases (plainVolume_inodes hi).1 with rfl | rfl <;> decide
  case root => exact Finset.mem_insert_self 1 {3}
  case root_dir =>
    have hroot : inodeOf (plainVolume nlinks super freemap).fs 1
        = smallInode sfsTypeDir 1 :=
      DiskInode.ofBytes_toBytes (smallInode_fits (by decide) (by decide))
    rw [show sfsBlknRoot = 1 from rfl, hroot]
    rfl
  case loaded =>
    intro i node hnode
    have hi : i = 3 := by
      by_contra hne
      rw [show (plainVolume nlinks super freemap).fs.inodes i = none
        from if_neg hne] at hnode
      cases hnode
    subst hi
    cases hnode
    have hfits : (smallInode sfsTypeFile nlinks).Fits :=
      smallInode_fits (by decide) hlinks
    exact ⟨Finset.mem_insert_of_mem (Finset.mem_singleton_self 3), hfits,
      fun h => by cases h⟩
  case covered =>
    intro i hi pos index hpos _
    obtain ⟨-, hdirect, hindirect⟩ := plainVolume_inodes hi
    cases pos with
    | self => cases hpos
    | direct k => exact congrFun hdirect k
    | indirect => exact hindirect
    | entry j => rw [target_entry, if_pos hindirect]

end

theorem smallVolume_bit : smallVolume.fs.freemap.bit b = true
    ↔ 4 ≤ b ∧ b < 8 := by
  have hword : ∀ k < 32, (0xF0#32).getLsbD k = true
      ↔ 4 ≤ k ∧ k < 8 := by decide
  show (if b / 32 = 0 then 0xF0#32 else 0#32).getLsbD (b % 32) = true ↔ _
  by_cases hb : b < 32
  · rw [if_pos (Nat.div_eq_of_lt hb), Nat.mod_eq_of_lt hb]
    exact hword b hb
  · rw [if_neg (by omega), BitVec.getLsbD_zero]
    simp only [Bool.false_eq_true, false_iff]
    omega

theorem smallVolume_consistent : Consistent smallVolume :=
  plainVolume_consistent 0 ⟨by decide, by decide, by decide,
    by decide, fun _ => smallVolume_bit, by decide⟩ (by decide)

/-- The unlinked file grows by a block and is closed: its block and its
inode are free. -/
theorem blocks_accounted_small : ∃ v v',
    Run Step smallVolume [.truncfile 3 1] v ∧ (∃! x, Refers v x 4)
      ∧ Run Step smallVolume [.truncfile 3 1, .refDec 3] v'
      ∧ (freeBits v'.fs).card = 5 := by
  have hgrow : (exec smallVolume.fs (.truncfile 3 1)).isSome = true := by
    decide +kernel
  obtain ⟨fs₁, hfs₁⟩ := Option.isSome_iff_exists.mp hgrow
  have hclose : (exec fs₁ (.refDec 3)).map (·.super.unusedBlocks)
      = some 5 := by
    have hrun : ((exec smallVolume.fs (.truncfile 3 1)).bind fun fs =>
        (exec fs (.refDec 3)).map (·.super.unusedBlocks)) = some 5 := by
      decide +kernel
    rwa [hfs₁, Option.bind_some] at hrun
  obtain ⟨fs₂, hfs₂, hunused⟩ := Option.map_eq_some_iff.mp hclose
  have hused : ((exec smallVolume.fs (.truncfile 3 1)).map fun fs =>
      (fs.freemap.bit 4, decide (4 < fs.super.blocks),
        decide (reservedBlocks fs.super ≤ 4))) = some (false, true, true) := by
    decide +kernel
  rw [hfs₁, Option.map_some, Option.some.injEq] at hused
  simp only [Prod.mk.injEq, decide_eq_true_eq] at hused
  obtain ⟨hbit, hlt, hlo⟩ := hused
  have hstep₁ : Step smallVolume (.truncfile 3 1)
      ⟨fs₁, filesAfter smallVolume fs₁ (.truncfile 3 1)⟩ :=
    .call (fun _ h => by cases h) hfs₁
  have hrun₁ := Run.single hstep₁
  have hrun₂ : Run Step smallVolume [.truncfile 3 1, .refDec 3] _ :=
    .cons hstep₁ (.single (.call (fun _ h => by cases h) hfs₂))
  exact ⟨_, _, hrun₁,
    ((blocks_accounted smallVolume_consistent hrun₁).used_iff hlo hlt).mp hbit,
    hrun₂, (blocks_accounted smallVolume_consistent hrun₂).unused_eq.symm.trans
      hunused⟩

end Ucore.Sfs
