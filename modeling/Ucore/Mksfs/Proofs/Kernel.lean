/-
An image as the kernel has it when it is mounted: its inodes, the blocks that
they map, and what holds of the volume where no inode has more blocks than the
kernel can map.
-/
import Ucore.Mksfs.Proofs.Mount
import Ucore.Sfs.Proofs.Size

namespace Ucore.Mksfs

open Sfs

variable {s : Image} {held files : Finset Nat} {disk : Nat → Nat → UInt8}
  {b i j k n : Nat} {pos : Pos}

-- ============================================================ inodes

/-- The place of an inode that the kernel knows by a position. -/
def place : Pos → Place
  | .self => .self
  | .direct k => .data k
  | .indirect => .indirect
  | .entry j => .data (sfsL0Nblks + j)

theorem place_injective {pos' : Pos} (h : place pos = place pos') :
    pos = pos' := by
  cases pos with
  | self => cases pos' <;> first | rfl | cases h
  | indirect => cases pos' <;> first | rfl | cases h
  | direct k =>
      have hk : k.val < sfsL0Nblks := k.isLt
      cases pos' with
      | self => cases h
      | indirect => cases h
      | direct k' => exact congrArg Pos.direct (Fin.ext (Place.data.inj h))
      | entry j =>
          have heq := Place.data.inj h
          omega
  | entry j =>
      cases pos' with
      | self => cases h
      | indirect => cases h
      | direct k =>
          have hk : k.val < sfsL0Nblks := k.isLt
          have heq := Place.data.inj h
          omega
      | entry j' =>
          exact congrArg Pos.entry (Fin.ext (Nat.add_left_cancel
            (Place.data.inj h)))

namespace Sound

variable (h : Sound held s) (hclosed : Closed disk s)

include h hclosed

theorem inodeOf_mounted (hi : s.Cached i) :
    inodeOf (s.mounted disk) i = (s.nodes i).din :=
  ofBytes_inode (h.din_fits hi) (hclosed.inode i hi)

theorem target_mounted (hi : s.Cached i) (pos : Pos) :
    target (s.mounted disk) i pos = s.view.target i (place pos) := by
  rw [← h.target_disk hclosed hi]
  cases pos with
  | self => rfl
  | direct k =>
      exact (View.dataAt_direct (v := diskView disk) (show k.val < sfsL0Nblks from
        k.isLt)).symm
  | indirect => rfl
  | entry j =>
      have hhi : sfsL0Nblks + j.val < sfsL1Nblks := by
        unfold sfsL1Nblks
        omega
      rw [target_entry]
      show _ = (diskView disk).dataAt i (sfsL0Nblks + j)
      rw [View.dataAt_indirect (Nat.le_add_right _ _) hhi, Nat.add_sub_cancel_left]
      rfl

/-- The block with an index, as far as the kernel can map it. -/
theorem blockAt_mounted (hi : s.Cached i) (hn : n < maxBlocks) :
    blockAt (s.mounted disk) i n = (s.stored i).getD n 0 := by
  rw [← (h.filled hi).data]
  rcases Nat.lt_or_ge n sfsNdirect with hlt | hge
  · rw [blockAt, dif_pos hlt, h.target_mounted hclosed hi]
    rfl
  · have hlt : n - sfsNdirect < sfsBlkNentry := by
      unfold maxBlocks at hn
      omega
    rw [blockAt_entry hge hlt, h.target_mounted hclosed hi]
    show s.view.target i (.data (sfsNdirect + (n - sfsNdirect))) = _
    rw [Nat.add_sub_cancel' hge]

theorem refers_mounted (hfiles : ∀ i, i ∈ files ↔ s.Cached i) (x : Nat × Pos)
    (b : Nat) : Refers ⟨s.mounted disk, files⟩ x b
      ↔ s.view.Refers s.Cached (x.1, place x.2) b := by
  unfold Refers View.Refers
  dsimp only
  rw [hfiles]
  constructor
  · rintro ⟨hi, heq, hne⟩
    rw [h.target_mounted hclosed hi] at heq
    exact ⟨hi, heq, hne⟩
  · rintro ⟨hi, heq, hne⟩
    rw [← h.target_mounted hclosed hi] at heq
    exact ⟨hi, heq, hne⟩

end Sound

-- ======================================================= consistency

/-- Where no inode has more blocks than the kernel can map, each place of an
inode has a position. -/
theorem Filled.place {ci : CacheInode} {l : List Nat} {p : Place}
    (h : Filled (s.view.target i) ci l) (hle : l.length ≤ maxBlocks)
    (hne : s.view.target i p ≠ 0) : ∃ pos, Mksfs.place pos = p := by
  have hmax : maxBlocks = sfsL1Nblks := by decide
  cases p with
  | self => exact ⟨.self, rfl⟩
  | indirect => exact ⟨.indirect, rfl⟩
  | dbIndirect =>
      have hlt := h.dbIndirect.1 hne
      omega
  | dbEntry a =>
      have hlt := (h.dbEntry a).1 hne
      omega
  | data n =>
      have hlt : n < l.length := by
        by_contra hge
        rw [h.data, List.getD_eq_default _ _ (Nat.not_lt.1 hge)] at hne
        exact hne rfl
      rcases Nat.lt_or_ge n sfsNdirect with hlo | hge
      · exact ⟨.direct ⟨n, hlo⟩, rfl⟩
      · refine ⟨.entry ⟨n - sfsNdirect, ?_⟩, ?_⟩
        · unfold maxBlocks at hle
          omega
        · exact congrArg Place.data (Nat.add_sub_cancel' hge)

/-- Each block that was given out is in use. -/
theorem Sound.bit_used (h : Sound ∅ s) {b : Nat} (hlt : b < s.ninos) :
    (s.mounted disk).freemap.bit b = false ↔ b < s.nextIno := by
  have hle := blocks_le_freemapBits s.super
  rw [h.super_blocks] at hle
  rw [h.bit_mounted (Nat.lt_of_lt_of_le hlt hle), decide_eq_false_iff_not]
  omega

/-- No inode has more blocks than the kernel can map, if it sees an owner of each
block in use. -/
theorem Sound.stored_le (h : Sound ∅ s) (hclosed : Closed disk s)
    (hfiles : ∀ i, i ∈ files ↔ s.Cached i) (hroot : s.Cached sfsBlknRoot)
    (hused : ∀ {b}, reservedBlocks (s.mounted disk).super ≤ b →
      b < (s.mounted disk).super.blocks → (s.mounted disk).freemap.bit b = false →
      ∃ x, Refers ⟨s.mounted disk, files⟩ x b)
    (hi : s.Cached i) : (s.stored i).length ≤ maxBlocks := by
  by_contra hmany
  have hexact := h.placed.owned.exact
  have hmax : maxBlocks = sfsL1Nblks := by decide
  have hne : s.view.target i .dbIndirect ≠ 0 :=
    (h.filled hi).dbIndirect.2 (by omega)
  have hb : s.view.Refers s.Cached (i, .dbIndirect)
      (s.view.target i .dbIndirect) := ⟨hi, rfl, hne⟩
  rcases hexact.used_iff.2 (Or.inl ⟨_, hb⟩) with ⟨hlo, hhi⟩ | heq
  · have hlt := Nat.lt_of_lt_of_le hhi h.placed.next_le
    obtain ⟨x, hx⟩ := hused (h.reserved.trans_le hlo)
      (hlt.trans_eq h.super_blocks.symm) ((h.bit_used hlt).2 hhi)
    have hpos := hexact.inj ((h.refers_mounted hclosed hfiles x _).1 hx) hb
    have hplace : place x.2 = .dbIndirect := congrArg Prod.snd hpos
    cases hp : x.2 with
    | self => rw [hp] at hplace; cases hplace
    | direct k => rw [hp] at hplace; cases hplace
    | indirect => rw [hp] at hplace; cases hplace
    | entry j => rw [hp] at hplace; cases hplace
  · rw [heq] at hb
    have hself : s.view.Refers s.Cached (sfsBlknRoot, .self) sfsBlknRoot :=
      ⟨hroot, rfl, by decide⟩
    cases hexact.inj hb hself

/-- The volume is consistent just if no inode has more blocks than the kernel can
map. -/
theorem Sound.consistent_iff (h : Sound ∅ s) (hclosed : Closed disk s)
    (hfiles : ∀ i, i ∈ files ↔ s.Cached i) (hroot : s.Cached sfsBlknRoot)
    (hdir : (s.nodes sfsBlknRoot).din.type = sfsTypeDir) :
    Consistent ⟨s.mounted disk, files⟩
      ↔ ∀ i, s.Cached i → (s.stored i).length ≤ maxBlocks := by
  have hmap := h.mapOk_mounted disk
  have hexact := h.placed.owned.exact
  have hreserved : reservedBlocks (s.mounted disk).super = firstIno s.ninos :=
    h.reserved
  have hblocks : (s.mounted disk).super.blocks = s.ninos := h.super_blocks
  have hrefers := h.refers_mounted hclosed hfiles
  constructor
  · intro hcons i hi
    exact h.stored_le hclosed hfiles hroot
      (fun hlo hlt => (hcons.used_iff hlo hlt).1) hi
  · intro hsmall
    refine ⟨hmap.nbits, hmap.nwords, hmap.blocks_lt, hmap.free_range,
      hmap.unused_eq, fun {b} hlo hlt => ?_, fun {x y b} hx hy => ?_,
      fun {x b} hx => ?_, fun {i} hi => ?_, ?_, ?_, (fun hnode => by cases hnode),
      fun {i} hi pos index hpos hge => ?_⟩
    · have hlo' : reservedBlocks (s.mounted disk).super ≤ b := hlo
      have hlt' : b < (s.mounted disk).super.blocks := hlt
      rw [hreserved] at hlo'
      rw [hblocks] at hlt'
      refine (h.bit_used hlt').trans ⟨fun hhi => ?_, ?_⟩
      · rcases hexact.used_iff.1 (Or.inl ⟨hlo', hhi⟩) with ⟨x, hx⟩ | hin
        · obtain ⟨hi, heq, hne⟩ := hx
          obtain ⟨pos, hpos⟩ := (h.filled hi).place (hsmall _ hi)
            (by rw [heq]; exact hne)
          refine ⟨(x.1, pos), (hrefers _ _).2 ⟨hi, ?_, hne⟩⟩
          rw [hpos]
          exact heq
        · cases hin
      · rintro ⟨x, hx⟩
        rcases hexact.used_iff.2 (Or.inl ⟨_, (hrefers x b).1 hx⟩) with hb | hb
        · exact hb.2
        · have hroot := root_lt_first s.ninos
          omega
    · have heq := hexact.inj ((hrefers x b).1 hx) ((hrefers y b).1 hy)
      exact Prod.ext (Prod.mk.inj heq).1 (place_injective (Prod.mk.inj heq).2)
    · have hx' := (hrefers x b).1 hx
      show b < (s.mounted disk).super.blocks
        ∧ (reservedBlocks (s.mounted disk).super ≤ b ∨ _)
      rw [hblocks, hreserved]
      have hnext := h.placed.next_le
      have hfirst := h.placed.first_le
      have hlt := root_lt_first s.ninos
      rcases hexact.used_iff.2 (Or.inl ⟨_, hx'⟩) with hb | hb
      · exact ⟨by omega, Or.inl hb.1⟩
      · refine ⟨by omega, Or.inr ?_⟩
        have hself : s.view.Refers s.Cached (sfsBlknRoot, place .self) b :=
          ⟨hroot, hb.symm, by rw [hb]; decide⟩
        have heq := hexact.inj hx' hself
        exact Prod.ext (Prod.mk.inj heq).1 (place_injective (Prod.mk.inj heq).2)
    · exact h.pos ((hfiles i).1 hi)
    · exact (hfiles _).2 hroot
    · show (inodeOf (s.mounted disk) sfsBlknRoot).type = sfsTypeDir
      rw [h.inodeOf_mounted hclosed hroot]
      exact hdir
    · have hi' := (hfiles i).1 hi
      have hfilled := h.filled hi'
      have hge' : (inodeOf (s.mounted disk) i).blocks ≤ index := hge
      rw [h.inodeOf_mounted hclosed hi', hfilled.blocks] at hge'
      show target (s.mounted disk) i pos = 0
      rw [h.target_mounted hclosed hi']
      cases pos with
      | self => cases hpos
      | indirect => cases hpos
      | direct k =>
          rw [← Option.some.inj hpos] at hge'
          show s.view.target i (.data k) = 0
          rw [hfilled.data, List.getD_eq_default _ _ hge']
      | entry j =>
          rw [← Option.some.inj hpos] at hge'
          show s.view.target i (.data (sfsNdirect + j)) = 0
          rw [hfilled.data, List.getD_eq_default _ _ hge']

end Ucore.Mksfs
