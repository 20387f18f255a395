/-
What the block map functions of SFS do to the accounting. A call keeps the
invariant, and changes the targets of one inode at the positions of one
index (`MapChange`); a call that fails changes no target.
-/
import Ucore.Sfs.Proofs.Targets

namespace Ucore.Sfs

variable {fs fs' fs₁ : SfsFs} {files : Finset Nat} {held : Finset Nat}
  {i b : Nat} {node : SfsInode} {p q : Pos → Prop}

-- ======================================================= map changes

/-- From `fs` to `fs'` inode `i` may have changed its targets at the
positions `p`, but not its links and its block count; the other inodes are
as they were. -/
structure MapChange (files : Finset Nat) (i : Nat) (p : Pos → Prop)
    (fs fs' : SfsFs) : Prop where
  others : ∀ {i'}, i' ≠ i → fs'.inodes i' = fs.inodes i'
  node : ∀ {node}, fs.inodes i = some node → ∃ node',
    fs'.inodes i = some node' ∧ node'.din.nlinks = node.din.nlinks
      ∧ node'.din.blocks = node.din.blocks
  targets : ∀ {i'}, i' ∈ files → ∀ {pos}, (i' = i → ¬ p pos) →
    target fs' i' pos = target fs i' pos

theorem MapChange.trans (h : MapChange files i p fs fs₁)
    (h' : MapChange files i p fs₁ fs') : MapChange files i p fs fs' where
  others hne := (h'.others hne).trans (h.others hne)
  node hnode := by
    obtain ⟨node₁, hnode₁, hlinks₁, hblocks₁⟩ := h.node hnode
    obtain ⟨node', hnode', hlinks', hblocks'⟩ := h'.node hnode₁
    exact ⟨node', hnode', hlinks'.trans hlinks₁, hblocks'.trans hblocks₁⟩
  targets hin _ hp := (h'.targets hin hp).trans (h.targets hin hp)

theorem MapChange.mono (h : MapChange files i p fs fs')
    (hpq : ∀ {pos}, p pos → q pos) : MapChange files i q fs fs' :=
  ⟨h.others, h.node, fun hin _ hq => h.targets hin fun hi hp =>
    hq hi (hpq hp)⟩

/-- Where no inode in memory changes. -/
theorem MapChange.of_inodes (hinodes : fs'.inodes = fs.inodes)
    (htargets : ∀ i' ∈ files, ∀ pos, (i' = i → ¬ p pos) →
      target fs' i' pos = target fs i' pos) :
    MapChange files i p fs fs' := by
  refine ⟨fun _ => congrFun hinodes _, fun hnode => ?_, fun hin _ hp =>
    htargets _ hin _ hp⟩
  exact ⟨_, (congrFun hinodes i).trans hnode, rfl, rfl⟩

theorem MapChange.refl (fs : SfsFs) : MapChange files i p fs fs :=
  of_inodes rfl fun _ _ _ _ => rfl

/-- A store to an inode in memory that keeps its links and its block
count. -/
theorem MapChange.of_withNode {node' : SfsInode}
    (hnode : fs.inodes i = some node)
    (hlinks : node'.din.nlinks = node.din.nlinks)
    (hblocks : node'.din.blocks = node.din.blocks)
    (htargets : ∀ i' ∈ files, ∀ pos, (i' = i → ¬ p pos) →
      target (withNode fs i node') i' pos = target fs i' pos) :
    MapChange files i p fs (withNode fs i node') := by
  refine ⟨fun hne => withNode_ne hne, fun hnode' => ?_, fun hin _ hp =>
    htargets _ hin _ hp⟩
  rw [hnode] at hnode'
  cases hnode'
  exact ⟨node', withNode_self, hlinks, hblocks⟩

/-- Nothing changes but at the position set. -/
theorem SetTarget.unchanged {pos₀ : Pos}
    (h : SetTarget files i pos₀ b fs fs') (hp : p pos₀) :
    ∀ i' ∈ files, ∀ pos, (i' = i → ¬ p pos) →
      target fs' i' pos = target fs i' pos := by
  intro i' hin pos hno
  rw [h i' hin, if_neg]
  rintro ⟨heq, rfl⟩
  exact hno heq hp

/-- Allocating a block. -/
theorem MapChange.alloc {ino : Nat}
    (h : Inv (insert ino held) ⟨fs', files⟩)
    (hinodes : fs'.inodes = fs.inodes)
    (hdisk : ∀ d, d ≠ ino → fs'.disk d = fs.disk d) :
    MapChange files i p fs fs' := by
  refine of_inodes hinodes fun i' hin pos _ => ?_
  exact (h.target_write (Finset.mem_insert_self ino held) hinodes.symm
    (fun d hd => (hdisk d hd).symm) hin pos).symm

/-- Freeing a block. -/
theorem MapChange.free (hinodes : fs'.inodes = fs.inodes)
    (hdisk : fs'.disk = fs.disk) : MapChange files i p fs fs' :=
  of_inodes hinodes fun i' _ pos _ => target_of_eq hinodes hdisk i' pos

-- ================================================ entries of a block

theorem sfsRbuf_run {len blkno offset : Nat} {buf : Nat → UInt8}
    (hrun : sfsRbuf len blkno offset fs = some (buf, fs')) :
    fs' = fs ∧ buf = fun k => fs.disk blkno (offset + k) := by
  unfold sfsRbuf at hrun
  simp only [Call.bind_eq_some, Call.assert_eq_some, Call.get_eq_some,
    Call.pure_eq_some] at hrun
  obtain ⟨_, _, ⟨-, rfl⟩, _, _, hcheck, _, _, ⟨rfl, rfl⟩, rfl, rfl⟩ := hrun
  obtain ⟨rfl, -⟩ := rwCheck_run hcheck
  exact ⟨rfl, rfl⟩

/-- `sfs_rbuf` of an entry. -/
theorem sfsRbuf_entry {ent j : Nat} {buf : Nat → UInt8}
    (hrun : sfsRbuf 4 ent (j * 4) fs = some (buf, fs')) :
    fs' = fs ∧ getWord buf 0 4 = entryAt fs.disk ent j := by
  obtain ⟨rfl, rfl⟩ := sfsRbuf_run hrun
  refine ⟨rfl, ?_⟩
  apply getWord_congr
  intro k _
  rw [Nat.zero_add]

theorem sfsWbuf_run {buf : Nat → UInt8} {len blkno offset : Nat} {u : Unit}
    (hrun : sfsWbuf buf len blkno offset fs = some (u, fs')) :
    fs' = { fs with
      disk := Function.update fs.disk blkno
        (storeBytes (fs.disk blkno) buf len offset) } := by
  unfold sfsWbuf at hrun
  simp only [Call.bind_eq_some, Call.assert_eq_some, Call.modify_eq_some]
    at hrun
  obtain ⟨_, _, ⟨-, rfl⟩, _, _, hcheck, rfl⟩ := hrun
  obtain ⟨rfl, -⟩ := rwCheck_run hcheck
  rfl

/-- `sfs_wbuf` of an entry. -/
theorem sfsWbuf_entry {ent j w : Nat} {u : Unit}
    (hrun : sfsWbuf (wordByte w) 4 ent (j * 4) fs = some (u, fs')) :
    fs' = withEntry fs ent j w :=
  sfsWbuf_run hrun

/-- A new entry of the indirect block of an inode. -/
theorem bmapAddEntry_old {r : Except Err (Nat × Nat)} {j : Fin sfsBlkNentry}
    (h : Inv held ⟨fs, files⟩) (hi : i ∈ files)
    (hind : (inodeOf fs i).indirect ≠ 0)
    (hzero : entryAt fs.disk (inodeOf fs i).indirect j = 0)
    (hrun : bmapAddEntry (inodeOf fs i).indirect (inodeOf fs i).indirect
      (j * 4) fs = some (r, fs')) :
    Inv held ⟨fs', files⟩ ∧ fs'.inodes = fs.inodes
      ∧ MapChange files i (fun pos => r.isOk = true ∧ pos = .entry j) fs fs'
      ∧ (∀ ent ino, r = .ok (ent, ino) → ent = (inodeOf fs i).indirect)
      ∧ Quiet files fs fs'
      ∧ ((∃ e, r = .error e) ∧ fs' = fs ∧ fs.super.unusedBlocks = 0
        ∨ r.isOk = true
          ∧ fs.super.unusedBlocks = fs'.super.unusedBlocks + 1) := by
  unfold bmapAddEntry at hrun
  rw [Call.bind_eq_some] at hrun
  obtain ⟨o, fs₁, halloc, hrun⟩ := hrun
  rcases sfsBlockAlloc_spec h halloc with
    ⟨rfl, rfl, hfull⟩
      | ⟨ino, rfl, hino, -, -, -, hinv, hinodes, -, hdisk, -, hquiet, hcount⟩
  · dsimp only at hrun
    rw [if_neg (not_not_intro rfl), Call.pure_eq_some] at hrun
    obtain ⟨rfl, rfl⟩ := hrun
    exact ⟨h, rfl, MapChange.refl fs', fun _ _ heq => (by cases heq),
      Quiet.refl files fs', Or.inl ⟨⟨_, rfl⟩, rfl, hfull⟩⟩
  · dsimp only at hrun
    rw [Call.bind_eq_some] at hrun
    obtain ⟨_, fs₂, hwrite, hrun⟩ := hrun
    rw [Call.pure_eq_some] at hrun
    obtain ⟨rfl, rfl⟩ := hrun
    have hin : ino ∈ insert ino held := Finset.mem_insert_self ino held
    -- the indirect block is the one before the allocation
    have hsame : inodeOf fs₁ i = inodeOf fs i :=
      inodeOf_congr (congrFun hinodes i) fun _ =>
        hdisk i (hinv.ne_inode hin hi)
    rw [← hsame] at hind hwrite hzero ⊢
    have hne := hinv.ne_indirect hin hi hind
    have hzero' : entryAt fs₁.disk (inodeOf fs₁ i).indirect j = 0 := by
      rw [entryAt, hdisk _ hne]
      exact hzero
    obtain rfl := sfsWbuf_entry hwrite
    have hlt := (hinv.held_range hin).2
    have hset := setTarget_entry hinv hi hind j hlt
    refine ⟨hinv.installEntry hino hi hind hzero', hinodes,
      (MapChange.alloc hinv hinodes hdisk).trans
        (MapChange.of_inodes rfl (hset.unchanged ⟨rfl, rfl⟩)), ?_,
      hquiet.trans (hinv.quiet_entry hi hind j ino), Or.inr ⟨rfl, hcount⟩⟩
    intro ent ino' heq
    cases heq
    rfl

/-- The first entry of a new indirect block, which is in hand. -/
theorem bmapAddEntry_new {r : Except Err (Nat × Nat)} {ent : Nat}
    {j : Fin sfsBlkNentry} (h : Inv (insert ent held) ⟨fs, files⟩)
    (hent : ent ∉ held) (hzero : ∀ k, fs.disk ent k = 0)
    (hrun : bmapAddEntry 0 ent (j * 4) fs = some (r, fs')) :
    fs'.inodes = fs.inodes ∧ MapChange files i p fs fs'
      ∧ Quiet files fs fs'
      ∧ ((∃ e, r = .error e ∧ Inv held ⟨fs', files⟩)
        ∨ ∃ ino, r = .ok (ent, ino) ∧ ino ∉ held ∧ ent ∉ insert ino held
          ∧ Inv (insert ent (insert ino held)) ⟨fs', files⟩
          ∧ ∀ j' : Fin sfsBlkNentry,
            entryAt fs'.disk ent j' = if j' = j then ino else 0) := by
  have hent0 := (h.held_range (Finset.mem_insert_self ent held)).1
  unfold bmapAddEntry at hrun
  rw [Call.bind_eq_some] at hrun
  obtain ⟨o, fs₁, halloc, hrun⟩ := hrun
  rcases sfsBlockAlloc_spec h halloc with
    ⟨rfl, rfl, -⟩
      | ⟨ino, rfl, hino, -, -, -, hinv, hinodes, -, hdisk, -, hquiet, -⟩
  · dsimp only at hrun
    rw [if_pos hent0, Call.bind_eq_some] at hrun
    obtain ⟨_, fs₂, hfree, hrun⟩ := hrun
    rw [Call.pure_eq_some] at hrun
    obtain ⟨rfl, rfl⟩ := hrun
    obtain ⟨hinv, hinodes, hdisk, hquiet⟩ := sfsBlockFree_spec h hent hfree
    exact ⟨hinodes, MapChange.free hinodes hdisk, hquiet,
      Or.inl ⟨_, rfl, hinv⟩⟩
  · dsimp only at hrun
    rw [Call.bind_eq_some] at hrun
    obtain ⟨_, fs₂, hwrite, hrun⟩ := hrun
    rw [Call.pure_eq_some] at hrun
    obtain ⟨rfl, rfl⟩ := hrun
    obtain rfl := sfsWbuf_entry hwrite
    rw [Finset.mem_insert, not_or] at hino
    obtain ⟨hne, hino⟩ := hino
    have hhand : ent ∈ insert ino (insert ent held) :=
      Finset.mem_insert_of_mem (Finset.mem_insert_self ent held)
    have hlt := (hinv.held_range (Finset.mem_insert_self ino _)).2
    have hother : ∀ d, d ≠ ent → (withEntry fs₁ ent j ino).disk d
        = fs₁.disk d := fun d hd => withEntry_ne hd
    have hinv' : Inv (insert ino (insert ent held))
        ⟨withEntry fs₁ ent j ino, files⟩ :=
      hinv.write hhand rfl rfl rfl hother
    have htarget : ∀ i' ∈ files, ∀ pos,
        target (withEntry fs₁ ent j ino) i' pos = target fs₁ i' pos :=
      fun i' hin pos => Inv.target_write hinv hhand
        (show (withEntry fs₁ ent j ino).inodes = fs₁.inodes from rfl) hother
        hin pos
    -- the new indirect block is in hand, so no inode's and not reserved
    have hwritten : Quiet files fs₁ (withEntry fs₁ ent j ino) := by
      refine ⟨fun {b} hb => withEntry_ne ?_, rfl, Or.inr ⟨rfl, rfl, rfl⟩⟩
      rcases hb with hb | hb
      · exact hinv.ne_inode hhand hb
      · obtain ⟨-, -, hlo⟩ := hinv.exact.used_iff.2 (Or.inr hhand)
        have hlo' : reservedBlocks fs₁.super ≤ ent :=
          hlo.resolve_right (hinv.ne_root hhand)
        omega
    refine ⟨hinodes, (MapChange.alloc hinv hinodes hdisk).trans
      (MapChange.of_inodes rfl fun i' hin pos _ => htarget i' hin pos),
      hquiet.trans hwritten, Or.inr ⟨ino, rfl, hino, ?_, ?_, fun j' => ?_⟩⟩
    · rw [Finset.mem_insert, not_or]
      exact ⟨Ne.symm hne, hent⟩
    · rw [Finset.insert_comm]
      exact hinv'
    · rw [entryAt_withEntry hlt]
      by_cases hj : j' = j
      · rw [if_pos hj, if_pos (congrArg Fin.val hj)]
      · rw [if_neg hj, if_neg fun hv => hj (Fin.ext hv), entryAt,
          hdisk ent (Ne.symm hne)]
        exact getWord_zero fun k _ => hzero _

-- ===================================================== the block map

/-- The positions a call on index `index` may change: that of the index,
and the indirect slot. -/
def AtIndex (index : Nat) (pos : Pos) : Prop :=
  pos = .indirect ∨ pos.index = some index

/-- What `sfs_bmap_get_sub_nolock` does for the inode whose indirect block
it is told. With a new indirect block, that and its entry are in hand. -/
theorem sfsBmapGetSubNolock_spec {r : Except Err (Nat × Nat)} {index : Nat}
    {create : Bool} (h : Inv held ⟨fs, files⟩)
    (hnode : fs.inodes i = some node)
    (hrun : sfsBmapGetSubNolock node.din.indirect index create fs
      = some (r, fs')) :
    fs'.inodes = fs.inodes
      ∧ MapChange files i (fun pos => create = true ∧ r.isOk = true
        ∧ AtIndex (sfsNdirect + index) pos) fs fs'
      ∧ Quiet files fs fs'
      ∧ ((Inv held ⟨fs', files⟩
          ∧ (∀ ent ino, r = .ok (ent, ino) → ent = node.din.indirect)
          ∧ (create = true → node.din.indirect = 0 → ∃ e, r = .error e))
        ∨ ∃ (ent ino : Nat) (j : Fin sfsBlkNentry), j.val = index
          ∧ create = true ∧ node.din.indirect = 0 ∧ r = .ok (ent, ino)
          ∧ ino ∉ held ∧ ent ∉ insert ino held
          ∧ Inv (insert ent (insert ino held)) ⟨fs', files⟩
          ∧ ∀ j' : Fin sfsBlkNentry,
            entryAt fs'.disk ent j' = if j' = j then ino else 0) := by
  have hi := (h.loaded hnode).1
  have hinode := inodeOf_loaded hnode
  unfold sfsBmapGetSubNolock at hrun
  rw [Call.bind_eq_some] at hrun
  obtain ⟨_, _, hassert, hrun⟩ := hrun
  rw [Call.assert_eq_some] at hassert
  obtain ⟨hlt, rfl⟩ := hassert
  let j : Fin sfsBlkNentry := ⟨index, hlt⟩
  dsimp only at hrun
  split at hrun
  case isTrue hind =>
      rw [Call.bind_eq_some] at hrun
      obtain ⟨buf, _, hread, hrun⟩ := hrun
      obtain ⟨rfl, hword⟩ := sfsRbuf_entry hread
      rw [hword] at hrun
      split at hrun
      case isTrue =>
          rw [Call.pure_eq_some] at hrun
          obtain ⟨rfl, rfl⟩ := hrun
          refine ⟨rfl, MapChange.refl _, Quiet.refl _ _, Or.inl ⟨h, ?_, ?_⟩⟩
          · intro ent ino heq
            cases heq
            rfl
          · exact fun _ hzero => absurd hzero hind
      case isFalse hnew =>
          rw [not_or, not_not, Bool.not_eq_false] at hnew
          obtain ⟨hzero, hcreate⟩ := hnew
          rw [← hinode] at hrun hind hzero ⊢
          obtain ⟨hinv, hinodes, hchange, hent, hquiet, -⟩ :=
            bmapAddEntry_old (j := j) h hi hind hzero hrun
          refine ⟨hinodes, hchange.mono ?_, hquiet, Or.inl ⟨hinv, hent,
            fun _ hzero => absurd hzero hind⟩⟩
          rintro pos ⟨hok, rfl⟩
          exact ⟨hcreate, hok, Or.inr rfl⟩
  case isFalse hind =>
      rw [not_not] at hind
      split at hrun
      case isTrue hlook =>
          rw [Call.pure_eq_some] at hrun
          obtain ⟨rfl, rfl⟩ := hrun
          refine ⟨rfl, MapChange.refl _, Quiet.refl _ _, Or.inl ⟨h, ?_, ?_⟩⟩
          · intro ent ino heq
            cases heq
            rfl
          · intro hcreate _
            rw [hlook] at hcreate
            cases hcreate
      case isFalse hcreate =>
          rw [Bool.not_eq_false] at hcreate
          rw [Call.bind_eq_some] at hrun
          obtain ⟨o, fs₁, halloc, hrun⟩ := hrun
          rcases sfsBlockAlloc_spec h halloc with ⟨rfl, rfl, -⟩
            | ⟨ent, rfl, hent, -, -, -, hinv, hinodes, -, hdisk, hzero,
              hquiet, -⟩
          · dsimp only at hrun
            rw [Call.pure_eq_some] at hrun
            obtain ⟨rfl, rfl⟩ := hrun
            exact ⟨rfl, MapChange.refl _, Quiet.refl _ _,
              Or.inl ⟨h, fun _ _ heq => (by cases heq), fun _ _ => ⟨_, rfl⟩⟩⟩
          · dsimp only at hrun
            rw [hind] at hrun
            obtain ⟨hinodes', hchange, hquiet', hout⟩ :=
              bmapAddEntry_new (j := j) hinv hent hzero hrun
            refine ⟨hinodes'.trans hinodes,
              (MapChange.alloc hinv hinodes hdisk).trans hchange,
              hquiet.trans hquiet', ?_⟩
            rcases hout with ⟨e, rfl, hinv'⟩
              | ⟨ino, rfl, hino, hne, hinv', hentries⟩
            · exact Or.inl ⟨hinv', fun _ _ heq => (by cases heq),
                fun _ _ => ⟨_, rfl⟩⟩
            · exact Or.inr ⟨ent, ino, j, rfl, hcreate, hind, rfl, hino, hne,
                hinv', hentries⟩

theorem bmapGetOut_run {ino : Nat} {r : Except Err Nat}
    (hrun : bmapGetOut ino fs = some (r, fs')) : r = .ok ino ∧ fs' = fs := by
  unfold bmapGetOut at hrun
  split at hrun
  case isTrue =>
      simp only [Call.bind_eq_some, Call.assert_eq_some, Call.pure_eq_some]
        at hrun
      obtain ⟨_, _, hinuse, _, _, ⟨-, rfl⟩, rfl, rfl⟩ := hrun
      exact ⟨rfl, (sfsBlockInuse_run hinuse).1⟩
  case isFalse =>
      rw [Call.pure_eq_some] at hrun
      exact hrun

/-- `sfs_bmap_get_nolock` keeps the invariant. It changes the map only
where it gives the index a block. -/
theorem sfsBmapGetNolock_spec {r : Except Err Nat} {index : Nat}
    {create : Bool} (h : Inv held ⟨fs, files⟩)
    (hrun : sfsBmapGetNolock i index create fs = some (r, fs')) :
    Inv held ⟨fs', files⟩ ∧ MapChange files i (fun pos => create = true
      ∧ r.isOk = true ∧ AtIndex index pos) fs fs'
      ∧ Quiet files fs fs' ∧ index < sfsNdirect + sfsBlkNentry := by
  unfold sfsBmapGetNolock at hrun
  rw [Call.bind_eq_some] at hrun
  obtain ⟨node, _, hget, hrun⟩ := hrun
  obtain ⟨hnode, rfl⟩ := getSin_run hget
  have hi := (h.loaded hnode).1
  dsimp only at hrun
  split at hrun
  case isTrue hlt =>
      have hrange : index < sfsNdirect + sfsBlkNentry :=
        Nat.lt_add_right _ hlt
      split at hrun
      case isTrue hnew =>
          obtain ⟨hzero, hcreate⟩ := hnew
          rw [Call.bind_eq_some] at hrun
          obtain ⟨o, fs₁, halloc, hrun⟩ := hrun
          rcases sfsBlockAlloc_spec h halloc with ⟨rfl, rfl, -⟩
            | ⟨ino, rfl, hino, -, -, -, hinv, hinodes, -, hdisk, -, hquiet, -⟩
          · dsimp only at hrun
            rw [Call.pure_eq_some] at hrun
            obtain ⟨rfl, rfl⟩ := hrun
            exact ⟨h, MapChange.refl _, Quiet.refl _ _, hrange⟩
          · dsimp only at hrun
            rw [Call.bind_eq_some] at hrun
            obtain ⟨_, fs₂, hset, hrun⟩ := hrun
            obtain ⟨rfl, rfl⟩ := bmapGetOut_run hrun
            obtain rfl := setSin_run hset
            have hnode₁ : fs₁.inodes i = some node :=
              (congrFun hinodes i).trans hnode
            have htarget : SetTarget files i (.direct ⟨index, hlt⟩) ino fs₁
                (withNode fs₁ i (node.setDirect ⟨index, hlt⟩ ino)) :=
              setTarget_direct hnode₁ _
            refine ⟨hinv.installDirect hino hnode₁ hzero,
              (MapChange.alloc hinv hinodes hdisk).trans
                (MapChange.of_withNode hnode₁ rfl rfl
                  (htarget.unchanged ⟨hcreate, rfl, Or.inr rfl⟩)),
              hquiet.trans (Quiet.of_memory rfl rfl rfl rfl), hrange⟩
      case isFalse =>
          obtain ⟨rfl, rfl⟩ := bmapGetOut_run hrun
          exact ⟨h, MapChange.refl _, Quiet.refl _ _, hrange⟩
  case isFalse hge =>
      split at hrun
      case isFalse => exact absurd hrun Call.panic_ne_some
      case isTrue hlt =>
          have hindex : sfsNdirect + (index - sfsNdirect) = index := by omega
          have hrange : index < sfsNdirect + sfsBlkNentry := by omega
          rw [Call.bind_eq_some] at hrun
          obtain ⟨o, fs₁, hsub, hrun⟩ := hrun
          obtain ⟨hinodes, hchange, hquiet, hout⟩ :=
            sfsBmapGetSubNolock_spec h hnode hsub
          rw [hindex] at hchange
          have hnode₁ : fs₁.inodes i = some node :=
            (congrFun hinodes i).trans hnode
          rcases hout with ⟨hinv, hent, -⟩ | ⟨ent, ino, j, hj, hcreate, hzero, rfl,
            hino, hne, hinv, hentries⟩
          · cases o with
            | error e =>
                dsimp only at hrun
                rw [Call.pure_eq_some] at hrun
                obtain ⟨rfl, rfl⟩ := hrun
                exact ⟨hinv, hchange, hquiet, hrange⟩
            | ok a =>
                obtain ⟨ent, ino⟩ := a
                dsimp only at hrun
                rw [if_neg (not_not_intro (hent ent ino rfl))] at hrun
                obtain ⟨rfl, rfl⟩ := bmapGetOut_run hrun
                exact ⟨hinv, hchange, hquiet, hrange⟩
          · have hent0 := (hinv.held_range (Finset.mem_insert_self ent _)).1
            dsimp only at hrun
            rw [hzero, if_pos hent0] at hrun
            simp only [Call.bind_eq_some, Call.assert_eq_some] at hrun
            obtain ⟨_, _, ⟨-, rfl⟩, _, fs₂, hset, hrun⟩ := hrun
            obtain ⟨rfl, rfl⟩ := bmapGetOut_run hrun
            obtain rfl := setSin_run hset
            have htarget := target_setIndirect hnode₁ hent0 hzero hentries
            refine ⟨hinv.installIndirect hino hne hnode₁ hzero hentries,
              hchange.trans (MapChange.of_withNode hnode₁ rfl rfl ?_),
              hquiet.trans (Quiet.of_memory rfl rfl rfl rfl), hrange⟩
            intro i' _ pos hno
            have hindirect : ¬ (i' = i ∧ pos = .indirect) := fun heq =>
              hno heq.1 ⟨hcreate, rfl, Or.inl heq.2⟩
            have hentry : ¬ (i' = i ∧ pos = .entry j) := by
              rintro ⟨heq, rfl⟩
              refine hno heq ⟨hcreate, rfl, Or.inr ?_⟩
              rw [Pos.index, hj, hindex]
            exact (htarget i' pos).trans
              ((if_neg hindirect).trans (if_neg hentry))

/-- A block for an index whose entry is in the indirect block the inode
has: no inode in memory changes. -/
theorem sfsBmapGetNolock_entry {r : Except Err Nat} {index : Nat}
    (h : Inv held ⟨fs, files⟩) (hnode : fs.inodes i = some node)
    (hge : sfsNdirect ≤ index) (hind : node.din.indirect ≠ 0)
    (hempty : ∀ {pos}, pos.index = some index → target fs i pos = 0)
    (hrun : sfsBmapGetNolock i index true fs = some (r, fs')) :
    fs'.inodes = fs.inodes
      ∧ ((∃ e, r = .error e) ∧ fs.super.unusedBlocks = 0
        ∨ r.isOk = true
          ∧ fs.super.unusedBlocks = fs'.super.unusedBlocks + 1) := by
  unfold sfsBmapGetNolock sfsBmapGetSubNolock at hrun
  rw [Call.bind_eq_some] at hrun
  obtain ⟨n, _, hget, hrun⟩ := hrun
  obtain ⟨hn, rfl⟩ := getSin_run hget
  rw [hnode] at hn
  cases hn
  dsimp only at hrun
  rw [dif_neg (Nat.not_lt.2 hge)] at hrun
  split at hrun
  case isFalse => exact absurd hrun Call.panic_ne_some
  case isTrue hlt =>
      rw [Call.bind_eq_some] at hrun
      obtain ⟨o, fs₁, hsub, hrun⟩ := hrun
      rw [Call.bind_eq_some] at hsub
      obtain ⟨_, fs₂, hassert, hsub⟩ := hsub
      rw [Call.assert_eq_some] at hassert
      obtain ⟨-, hsame⟩ := hassert
      rw [hsame, Call.bind_eq_some] at hsub
      obtain ⟨buf, fs₃, hread, hsub⟩ := hsub
      obtain ⟨hsame₃, hword⟩ := sfsRbuf_entry hread
      let j : Fin sfsBlkNentry := ⟨index - sfsNdirect, hlt⟩
      have hinode := inodeOf_loaded hnode
      have hpos : (Pos.entry j).index = some index :=
        congrArg some (by show sfsNdirect + (index - sfsNdirect) = index; omega)
      have hzero := hempty hpos
      rw [target_entry, hinode, if_neg hind] at hzero
      rw [hsame₃, hword, show entryAt _ _ (index - sfsNdirect) = 0 from hzero,
        if_neg (by simp)] at hsub
      rw [← hinode] at hsub hind hzero
      obtain ⟨-, hinodes, -, hent, -, hcount⟩ :=
        bmapAddEntry_old (j := j) h (h.loaded hnode).1 hind hzero hsub
      rcases hcount with ⟨⟨e, rfl⟩, -, hfull⟩ | ⟨hok, hcount⟩
      · dsimp only at hrun
        rw [Call.pure_eq_some] at hrun
        obtain ⟨rfl, rfl⟩ := hrun
        exact ⟨hinodes, Or.inl ⟨⟨e, rfl⟩, hfull⟩⟩
      · cases o with
        | error e => cases hok
        | ok a =>
            obtain ⟨ent, ino⟩ := a
            dsimp only at hrun
            rw [if_neg (not_not_intro (by rw [hent ent ino rfl, hinode]))]
              at hrun
            obtain ⟨rfl, rfl⟩ := bmapGetOut_run hrun
            exact ⟨hinodes, Or.inr ⟨rfl, hcount⟩⟩

/-- A block for another index is a store to the inode, which marks it. -/
theorem sfsBmapGetNolock_marks {r : Except Err Nat} {index : Nat}
    (h : Inv held ⟨fs, files⟩) (hnode : fs.inodes i = some node)
    (hplace : index < sfsNdirect ∨ node.din.indirect = 0)
    (hempty : ∀ {pos}, pos.index = some index → target fs i pos = 0)
    (hrun : sfsBmapGetNolock i index true fs = some (r, fs')) :
    (∃ e, r = .error e) ∧ fs'.inodes = fs.inodes
      ∨ r.isOk = true ∧ ∃ node', fs'.inodes i = some node'
        ∧ node'.dirty = true := by
  unfold sfsBmapGetNolock at hrun
  rw [Call.bind_eq_some] at hrun
  obtain ⟨n, _, hget, hrun⟩ := hrun
  obtain ⟨hn, rfl⟩ := getSin_run hget
  rw [hnode] at hn
  cases hn
  dsimp only at hrun
  split at hrun
  case isTrue hlt =>
      have hzero : node.din.direct ⟨index, hlt⟩ = 0 := by
        have hzero := @hempty (.direct ⟨index, hlt⟩) rfl
        rwa [show target _ i (.direct ⟨index, hlt⟩)
          = (inodeOf _ i).direct ⟨index, hlt⟩ from rfl,
          inodeOf_loaded hnode] at hzero
      rw [if_pos ⟨hzero, rfl⟩, Call.bind_eq_some] at hrun
      obtain ⟨o, fs₁, halloc, hrun⟩ := hrun
      rcases sfsBlockAlloc_spec h halloc with ⟨rfl, rfl, -⟩ | ⟨ino, rfl, -⟩
      · dsimp only at hrun
        rw [Call.pure_eq_some] at hrun
        obtain ⟨rfl, rfl⟩ := hrun
        exact Or.inl ⟨⟨_, rfl⟩, rfl⟩
      · dsimp only at hrun
        rw [Call.bind_eq_some] at hrun
        obtain ⟨_, fs₂, hset, hrun⟩ := hrun
        obtain ⟨rfl, rfl⟩ := bmapGetOut_run hrun
        obtain rfl := setSin_run hset
        exact Or.inr ⟨rfl, _, withNode_self, rfl⟩
  case isFalse hge =>
      have hnone : node.din.indirect = 0 := hplace.resolve_left hge
      split at hrun
      case isFalse => exact absurd hrun Call.panic_ne_some
      case isTrue hlt =>
          rw [Call.bind_eq_some] at hrun
          obtain ⟨o, fs₁, hsub, hrun⟩ := hrun
          obtain ⟨hinodes, -, -, hout⟩ := sfsBmapGetSubNolock_spec h hnode hsub
          rcases hout with ⟨-, -, herror⟩ | ⟨ent, ino, j, -, -, -, rfl, -, -,
            hinv, -⟩
          · obtain ⟨e, rfl⟩ := herror rfl hnone
            dsimp only at hrun
            rw [Call.pure_eq_some] at hrun
            obtain ⟨rfl, rfl⟩ := hrun
            exact Or.inl ⟨⟨e, rfl⟩, hinodes⟩
          · have hent0 := (hinv.held_range (Finset.mem_insert_self ent _)).1
            dsimp only at hrun
            rw [hnone, if_pos hent0] at hrun
            simp only [Call.bind_eq_some, Call.assert_eq_some] at hrun
            obtain ⟨_, _, ⟨-, rfl⟩, _, fs₂, hset, hrun⟩ := hrun
            obtain ⟨rfl, rfl⟩ := bmapGetOut_run hrun
            obtain rfl := setSin_run hset
            exact Or.inr ⟨rfl, _, withNode_self, rfl⟩

/-- `sfs_bmap_free_sub_nolock` of an entry of an inode's indirect block. -/
theorem sfsBmapFreeSubNolock_spec {u : Unit} {index : Nat}
    (h : Inv held ⟨fs, files⟩) (hi : i ∈ files)
    (hind : (inodeOf fs i).indirect ≠ 0)
    (hrun : sfsBmapFreeSubNolock (inodeOf fs i).indirect index fs
      = some (u, fs')) :
    Inv held ⟨fs', files⟩ ∧ Quiet files fs fs'
      ∧ ∃ j : Fin sfsBlkNentry, j.val = index
        ∧ MapChange files i (· = .entry j) fs fs'
        ∧ target fs' i (.entry j) = 0 := by
  unfold sfsBmapFreeSubNolock at hrun
  simp only [Call.bind_eq_some, Call.assert_eq_some] at hrun
  obtain ⟨_, fs₁, hinuse, _, _, ⟨⟨-, hlt⟩, rfl⟩, buf, fs₂, hread, hrun⟩ :=
    hrun
  obtain ⟨hsame₁, -⟩ := sfsBlockInuse_run hinuse
  obtain ⟨hsame₂, hword⟩ := sfsRbuf_entry hread
  rw [hsame₁] at hsame₂ hword
  rw [hsame₂, hword] at hrun
  let j : Fin sfsBlkNentry := ⟨index, hlt⟩
  split at hrun
  case isTrue hne =>
      rw [Call.bind_eq_some] at hrun
      obtain ⟨_, fs₁, hwrite, hfree⟩ := hrun
      obtain rfl := sfsWbuf_entry hwrite
      have hrefers : Refers ⟨fs, files⟩ (i, .entry j)
          (entryAt fs.disk (inodeOf fs i).indirect index) := by
        refine ⟨hi, ?_, hne⟩
        rw [target_entry, if_neg hind]
      obtain ⟨hinv, hinodes, hdisk, hquiet⟩ := sfsBlockFree_spec
        (h.clearEntry (j := j) hi hind hne) (h.exact.apart hrefers) hfree
      have hset := setTarget_entry h hi hind j (show 0 < 256 ^ 4 by decide)
      have hwritten : MapChange files i (· = .entry j) fs
          (withEntry fs (inodeOf fs i).indirect j 0) :=
        MapChange.of_inodes rfl (hset.unchanged rfl)
      refine ⟨hinv, (h.quiet_entry hi hind j 0).trans hquiet, j, rfl,
        hwritten.trans (MapChange.free hinodes hdisk), ?_⟩
      rw [target_of_eq hinodes hdisk, hset i hi, if_pos ⟨rfl, rfl⟩]
  case isFalse hzero =>
      rw [not_not] at hzero
      rw [Call.pure_eq_some] at hrun
      obtain ⟨-, rfl⟩ := hrun
      refine ⟨h, Quiet.refl _ _, j, rfl, MapChange.refl _, ?_⟩
      rw [target_entry, if_neg hind]
      exact hzero

/-- `sfs_bmap_free_nolock` keeps the invariant and leaves no block at the
index. -/
theorem sfsBmapFreeNolock_spec {u : Unit} {index : Nat}
    (h : Inv held ⟨fs, files⟩)
    (hrun : sfsBmapFreeNolock i index fs = some (u, fs')) :
    Inv held ⟨fs', files⟩
      ∧ MapChange files i (fun pos => pos.index = some index) fs fs'
      ∧ Quiet files fs fs'
      ∧ ∀ pos, pos.index = some index → target fs' i pos = 0 := by
  unfold sfsBmapFreeNolock at hrun
  rw [Call.bind_eq_some] at hrun
  obtain ⟨node, fs₁, hget, hrun⟩ := hrun
  obtain ⟨hnode, hsame⟩ := getSin_run hget
  rw [hsame] at hrun
  have hi := (h.loaded hnode).1
  have hinode := inodeOf_loaded hnode
  dsimp only at hrun
  split at hrun
  case isTrue hlt =>
      let k : Fin sfsNdirect := ⟨index, hlt⟩
      have honly : ∀ pos : Pos, pos.index = some index → pos = .direct k := by
        intro pos hpos
        cases pos with
        | self => cases hpos
        | direct k' => exact congrArg Pos.direct (Fin.ext (Option.some.inj hpos))
        | indirect => cases hpos
        | entry j =>
            have heq : sfsNdirect + j.val = index := Option.some.inj hpos
            omega
      split at hrun
      case isTrue hne =>
          rw [Call.bind_eq_some] at hrun
          obtain ⟨_, fs₂, hfreed, hset⟩ := hrun
          obtain ⟨freemap, hfree, rfl⟩ := sfsBlockFree_run hfreed
          obtain rfl := setSin_run hset
          have hrefers : Refers ⟨fs, files⟩ (i, .direct k)
              (node.din.direct k) := by
            refine ⟨hi, ?_, hne⟩
            show (inodeOf fs i).direct k = _
            rw [hinode]
          have hinv := (h.clearDirect hnode hne).give
            (h.exact.apart hrefers) hfree
          have htarget : SetTarget files i (.direct k) 0 fs
              (withNode fs i (node.setDirect k 0)) := setTarget_direct hnode k
          have hcleared : MapChange files i
              (fun pos => pos.index = some index) fs
              (withNode fs i (node.setDirect k 0)) :=
            MapChange.of_withNode hnode rfl rfl (htarget.unchanged rfl)
          refine ⟨hinv, hcleared.trans (MapChange.free rfl rfl),
            (Quiet.withFreemap freemap _).trans
              (Quiet.of_memory rfl rfl rfl rfl), ?_⟩
          intro pos hpos
          rw [honly pos hpos]
          exact (htarget i hi _).trans (if_pos ⟨rfl, rfl⟩)
      case isFalse hzero =>
          rw [not_not] at hzero
          rw [Call.pure_eq_some] at hrun
          obtain ⟨-, rfl⟩ := hrun
          refine ⟨h, MapChange.refl _, Quiet.refl _ _, fun pos hpos => ?_⟩
          rw [honly pos hpos]
          show (inodeOf fs' i).direct k = 0
          rw [hinode]
          exact hzero
  case isFalse hge =>
      have honly : ∀ pos : Pos, pos.index = some index →
          ∃ j : Fin sfsBlkNentry, pos = .entry j
            ∧ j.val = index - sfsNdirect := by
        intro pos hpos
        cases pos with
        | self => cases hpos
        | direct k' =>
            have heq : k'.val = index := Option.some.inj hpos
            omega
        | indirect => cases hpos
        | entry j =>
            have heq : sfsNdirect + j.val = index := Option.some.inj hpos
            exact ⟨j, rfl, by omega⟩
      rw [← hinode] at hrun
      split at hrun
      case isTrue hmapped =>
          obtain ⟨hinv, hquiet, j, hj, hchange, hzero⟩ :=
            sfsBmapFreeSubNolock_spec h hi hmapped.2 hrun
          refine ⟨hinv, hchange.mono ?_, hquiet, fun pos hpos => ?_⟩
          · rintro pos rfl
            rw [Pos.index, hj]
            congr 1
            omega
          · obtain ⟨j', rfl, hj'⟩ := honly pos hpos
            rw [Fin.ext (hj'.trans hj.symm)]
            exact hzero
      case isFalse hnone =>
          rw [Call.pure_eq_some] at hrun
          obtain ⟨-, rfl⟩ := hrun
          refine ⟨h, MapChange.refl _, Quiet.refl _ _, fun pos hpos => ?_⟩
          obtain ⟨j, rfl, hj⟩ := honly pos hpos
          rw [target_entry, if_pos]
          have hlt := j.isLt
          omega

end Ucore.Sfs
