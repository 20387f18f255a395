/-
Growing and shrinking a file keeps the accounting, also where it stops for
lack of blocks. An inode that is not dirty stays as it is on disk, but where
a file that uses its indirect block stops growing halfway.
-/
import Ucore.Sfs.File
import Ucore.Sfs.Proofs.BlockMap

namespace Ucore.Sfs

variable {fs fs' fs₁ : SfsFs} {files : Finset Nat} {i : Nat} {node : SfsInode}
  {p : Pos → Prop} {strict : Prop}

-- ========================================================= soundness

/-- The inodes that must map no block past their block count: the blocks of
one in memory without links are freed by that count. An inode that left
memory not dirty after it stopped growing may map such blocks, so all inodes
are meant only where that is ruled out. -/
def MustCover (strict : Prop) (fs : SfsFs) (i : Nat) : Prop :=
  strict ∨ ∃ node, fs.inodes i = some node ∧ node.din.nlinks = 0

/-- Nothing is in hand, and inodes map no block past their block count. -/
structure Sound (strict : Prop) (files : Finset Nat) (fs : SfsFs) : Prop where
  inv : Inv ∅ ⟨fs, files⟩
  covered : ∀ {i}, i ∈ files → MustCover strict fs i →
    CoveredBy fs i (inodeOf fs i).blocks

theorem Sound.of_strict (h : Sound strict files fs) (hs : strict) :
    Sound True files fs :=
  ⟨h.inv, fun hin _ => h.covered hin (Or.inl hs)⟩

/-- From `fs` to `fs'` inode `i` stays in memory with its links, and the
other inodes in memory are as they were. -/
structure Frame (files : Finset Nat) (i : Nat) (fs fs' : SfsFs) : Prop where
  others : ∀ {i'}, i' ≠ i → fs'.inodes i' = fs.inodes i'
  links : ∀ {node}, fs.inodes i = some node → ∃ node',
    fs'.inodes i = some node' ∧ node'.din.nlinks = node.din.nlinks
  quiet : Quiet files fs fs'

theorem Frame.refl (files : Finset Nat) (i : Nat) (fs : SfsFs) :
    Frame files i fs fs :=
  ⟨fun _ => rfl, fun h => ⟨_, h, rfl⟩, Quiet.refl files fs⟩

theorem Frame.trans (h : Frame files i fs fs₁) (h' : Frame files i fs₁ fs') :
    Frame files i fs fs' where
  others hne := (h'.others hne).trans (h.others hne)
  links hnode := by
    obtain ⟨node₁, hnode₁, hlinks₁⟩ := h.links hnode
    obtain ⟨node', hnode', hlinks'⟩ := h'.links hnode₁
    exact ⟨node', hnode', hlinks'.trans hlinks₁⟩
  quiet := h.quiet.trans h'.quiet

theorem MapChange.frame (h : MapChange files i p fs fs')
    (hquiet : Quiet files fs fs') : Frame files i fs fs' := by
  refine ⟨h.others, fun hnode => ?_, hquiet⟩
  obtain ⟨node', hnode', hlinks, -⟩ := h.node hnode
  exact ⟨node', hnode', hlinks⟩

/-- A store to the inode that keeps its links. -/
theorem Frame.store {node₁ node' : SfsInode} (h : Frame files i fs fs₁)
    (hnode : fs₁.inodes i = some node₁)
    (hlinks : node'.din.nlinks = node₁.din.nlinks) :
    Frame files i fs (withNode fs₁ i node') := by
  refine h.trans ⟨fun hne => withNode_ne hne, fun hn => ?_,
    Quiet.of_memory rfl rfl rfl rfl⟩
  rw [hnode] at hn
  cases hn
  exact ⟨node', withNode_self, hlinks⟩

/-- The other inodes are as they were, also those not in memory. -/
theorem inodeOf_other {i' : Nat}
    (hothers : ∀ {i'}, i' ≠ i → fs'.inodes i' = fs.inodes i')
    (hquiet : Quiet (files.erase i) fs fs') (hin : i' ∈ files)
    (hne : i' ≠ i) : inodeOf fs' i' = inodeOf fs i' :=
  inodeOf_congr (hothers hne) fun _ =>
    hquiet.disk (Or.inl (Finset.mem_erase.2 ⟨hne, hin⟩))

theorem mustCover_loaded (hnode : fs.inodes i = some node) :
    MustCover strict fs i ↔ strict ∨ node.din.nlinks = 0 := by
  unfold MustCover
  rw [hnode]
  simp only [Option.some.injEq, exists_eq_left']

theorem MustCover.congr (h : MustCover strict fs' i)
    (hinodes : fs'.inodes i = fs.inodes i) : MustCover strict fs i := by
  unfold MustCover at h
  rwa [hinodes] at h

/-- Where the blocks of one inode change. -/
theorem Sound.of_others (h : Sound strict files fs) (hinv : Inv ∅ ⟨fs', files⟩)
    (hothers : ∀ {i'}, i' ≠ i → fs'.inodes i' = fs.inodes i')
    (hquiet : Quiet (files.erase i) fs fs')
    (htargets : ∀ {i'}, i' ∈ files → i' ≠ i → ∀ pos,
      target fs' i' pos = target fs i' pos)
    (hcovered : MustCover strict fs' i →
      CoveredBy fs' i (inodeOf fs' i).blocks) :
    Sound strict files fs' := by
  refine ⟨hinv, fun {i'} hin hmust pos index hpos hle => ?_⟩
  by_cases heq : i' = i
  · subst heq
    exact hcovered hmust hpos hle
  · rw [inodeOf_other hothers hquiet hin heq] at hle
    rw [htargets hin heq]
    exact h.covered hin (hmust.congr (hothers heq)) hpos hle

/-- A call on the map of one inode, and a store to its block count. -/
theorem Sound.setBlocks {node₁ node' : SfsInode} (h : Sound strict files fs)
    (hinv : Inv ∅ ⟨fs₁, files⟩) (hchange : MapChange files i p fs fs₁)
    (hquiet : Quiet (files.erase i) fs fs₁)
    (hnode : fs₁.inodes i = some node₁)
    (hmap : SameMap node'.din node₁.din) (hfits : node'.din.Fits)
    (hclean : node'.dirty = false →
      SameMap node'.din (DiskInode.ofBytes (fs₁.disk i)))
    (hcovered : strict ∨ node'.din.nlinks = 0 →
      CoveredBy fs₁ i node'.din.blocks) :
    Sound strict files (withNode fs₁ i node') := by
  have hi := (hinv.loaded hnode).1
  have hmap' : SameMap node'.din (inodeOf fs₁ i) := by
    rw [inodeOf_loaded hnode]
    exact hmap
  obtain ⟨hinv', htarget⟩ := hinv.setMap hi hmap' hfits hclean
  refine h.of_others hinv' (fun hne => (withNode_ne hne).trans
    (hchange.others hne)) (hquiet.trans (Quiet.of_memory rfl rfl rfl rfl))
    (fun hin hne pos => ?_) ?_
  · rw [htarget]
    exact hchange.targets hin fun heq => absurd heq hne
  · intro hmust pos index hpos hle
    rw [inodeOf_loaded withNode_self] at hle
    rw [htarget]
    exact hcovered ((mustCover_loaded withNode_self).1 hmust) hpos hle

theorem Sound.covered_loaded (h : Sound strict files fs)
    (hnode : fs.inodes i = some node)
    (hmust : strict ∨ node.din.nlinks = 0) :
    CoveredBy fs i node.din.blocks := by
  have hcovered : CoveredBy fs i (inodeOf fs i).blocks :=
    h.covered (h.inv.loaded hnode).1 ((mustCover_loaded hnode).2 hmust)
  rwa [inodeOf_loaded hnode] at hcovered

/-- A call on the map of one inode that changes no target past the block
count. -/
theorem Sound.change (h : Sound strict files fs) (hinv : Inv ∅ ⟨fs', files⟩)
    (hchange : MapChange files i p fs fs') (hquiet : Quiet files fs fs')
    (hnode : fs.inodes i = some node)
    (hpast : ∀ {pos index}, p pos → pos.index = some index →
      index < node.din.blocks) : Sound strict files fs' := by
  refine h.of_others hinv hchange.others
    (hquiet.mono (Finset.erase_subset i files))
    (fun hin hne pos => hchange.targets hin fun heq => absurd heq hne) ?_
  intro hmust pos index hpos hle
  obtain ⟨node', hnode', hlinks, hblocks⟩ := hchange.node hnode
  rw [mustCover_loaded hnode', hlinks] at hmust
  rw [inodeOf_loaded hnode', hblocks] at hle
  rw [hchange.targets (h.inv.loaded hnode).1 fun _ hp =>
    absurd (hpast hp hpos) (Nat.not_lt.mpr hle)]
  exact h.covered_loaded hnode hmust hpos hle

-- =========================================================== growing

/-- `sfs_bmap_load_nolock`. -/
theorem sfsBmapLoadNolock_spec {r : Except Err Nat} {index : Nat}
    (h : Sound strict files fs)
    (hrun : sfsBmapLoadNolock i index fs = some (r, fs')) :
    Sound strict files fs' ∧ Frame files i fs fs' := by
  unfold sfsBmapLoadNolock at hrun
  simp only [Call.bind_eq_some, Call.assert_eq_some] at hrun
  obtain ⟨node, _, hget, _, _, ⟨hle, rfl⟩, o, fs₁, hmap, hrun⟩ := hrun
  obtain ⟨hnode, hsame⟩ := getSin_run hget
  rw [hsame] at hmap
  obtain ⟨hinv, hchange, hquiet, hrange⟩ := sfsBmapGetNolock_spec h.inv hmap
  cases o with
  | error e =>
      dsimp only at hrun
      rw [Call.pure_eq_some] at hrun
      obtain ⟨rfl, rfl⟩ := hrun
      exact ⟨h.change hinv hchange hquiet hnode fun hp _ => (by cases hp.2.1),
        hchange.frame hquiet⟩
  | ok ino =>
      dsimp only at hrun
      simp only [Call.bind_eq_some, Call.assert_eq_some] at hrun
      obtain ⟨_, fs₂, hinuse, _, _, ⟨-, rfl⟩, hrun⟩ := hrun
      obtain ⟨hsame₂, -⟩ := sfsBlockInuse_run hinuse
      rw [hsame₂] at hrun
      split at hrun
      case isFalse hcreate =>
          rw [Call.pure_eq_some] at hrun
          obtain ⟨rfl, rfl⟩ := hrun
          exact ⟨h.change hinv hchange hquiet hnode fun hp _ =>
            absurd hp.1 hcreate, hchange.frame hquiet⟩
      case isTrue hcreate =>
          simp only [Call.bind_eq_some, Call.pure_eq_some] at hrun
          obtain ⟨node₁, fs₃, hget₁, _, _, hset, rfl, rfl⟩ := hrun
          obtain ⟨hnode₁, rfl⟩ := getSin_run hget₁
          obtain rfl := setSin_run hset
          obtain ⟨n, hn, hlinks, hblocks⟩ := hchange.node hnode
          rw [hnode₁] at hn
          cases hn
          have hindex := of_decide_eq_true hcreate
          obtain ⟨hi, hfits, hclean⟩ := hinv.loaded hnode₁
          refine ⟨h.setBlocks hinv hchange
            (hquiet.mono (Finset.erase_subset i files)) hnode₁
            ⟨rfl, rfl, rfl⟩ ⟨hfits.size, hfits.type, hfits.nlinks, ?_,
              hfits.direct, hfits.indirect⟩
            (fun hd => ⟨(hclean hd).direct, (hclean hd).indirect,
              (hclean hd).type⟩) ?_,
            (hchange.frame hquiet).store hnode₁ rfl⟩
          · show node₁.din.blocks + 1 < 256 ^ 4
            unfold sfsNdirect sfsBlkNentry sfsBlksize at hrange
            omega
          · intro hmust pos idx hpos hpast
            have hpast' : node₁.din.blocks + 1 ≤ idx := hpast
            rw [hchange.targets hi]
            · refine h.covered_loaded hnode
                (hmust.imp_right fun hzero => hlinks.symm.trans hzero) hpos ?_
              omega
            · rintro - ⟨-, -, rfl | hat⟩
              · cases hpos
              · have hidx := Option.some.inj (hpos.symm.trans hat)
                omega

theorem growFile_spec {r : Except Err Unit} :
    ∀ {n nblks : Nat} {fs : SfsFs}, Sound strict files fs →
      growFile i n nblks fs = some (r, fs') →
      Sound strict files fs' ∧ Frame files i fs fs' := by
  intro n
  induction n with
  | zero =>
      intro nblks fs h hrun
      rw [growFile, Call.pure_eq_some] at hrun
      obtain ⟨-, rfl⟩ := hrun
      exact ⟨h, Frame.refl files i fs'⟩
  | succ n ih =>
      intro nblks fs h hrun
      rw [growFile, Call.bind_eq_some] at hrun
      obtain ⟨o, fs₁, hload, hrun⟩ := hrun
      obtain ⟨hsound, hframe⟩ := sfsBmapLoadNolock_spec h hload
      cases o with
      | error e =>
          dsimp only at hrun
          rw [Call.pure_eq_some] at hrun
          obtain ⟨-, rfl⟩ := hrun
          exact ⟨hsound, hframe⟩
      | ok ino =>
          obtain ⟨hsound', hframe'⟩ := ih hsound hrun
          exact ⟨hsound', hframe.trans hframe'⟩

-- ========================================================= shrinking

/-- `sfs_bmap_truncate_nolock`. -/
theorem sfsBmapTruncateNolock_spec {u : Unit} (h : Sound strict files fs)
    (hrun : sfsBmapTruncateNolock i fs = some (u, fs')) :
    Sound strict files fs' ∧ Frame files i fs fs' := by
  unfold sfsBmapTruncateNolock at hrun
  simp only [Call.bind_eq_some, Call.assert_eq_some] at hrun
  obtain ⟨node, _, hget, _, _, ⟨hne, rfl⟩, _, fs₁, hfree, node₁, fs₂, hget₁,
    hset⟩ := hrun
  obtain ⟨hnode, hsame⟩ := getSin_run hget
  rw [hsame] at hfree
  obtain ⟨hinv, hchange, hquiet, hzero⟩ := sfsBmapFreeNolock_spec h.inv hfree
  obtain ⟨hnode₁, rfl⟩ := getSin_run hget₁
  obtain rfl := setSin_run hset
  obtain ⟨n, hn, hlinks, hblocks⟩ := hchange.node hnode
  rw [hnode₁] at hn
  cases hn
  obtain ⟨hi, hfits, -⟩ := hinv.loaded hnode₁
  refine ⟨h.setBlocks hinv hchange
    (hquiet.mono (Finset.erase_subset i files)) hnode₁ ⟨rfl, rfl, rfl⟩
    ⟨hfits.size, hfits.type, hfits.nlinks, ?_, hfits.direct,
      hfits.indirect⟩ (fun h => by cases h) ?_,
      (hchange.frame hquiet).store hnode₁ rfl⟩
  · exact Nat.lt_of_le_of_lt (Nat.sub_le _ 1) hfits.blocks
  · intro hmust pos idx hpos hpast
    have hpast' : node₁.din.blocks - 1 ≤ idx := hpast
    by_cases hat : pos.index = some (node.din.blocks - 1)
    · exact hzero pos hat
    · rw [hchange.targets hi fun _ => hat]
      refine h.covered_loaded hnode
        (hmust.imp_right fun hzero => hlinks.symm.trans hzero) hpos ?_
      rw [hpos, Option.some.injEq] at hat
      omega

theorem shrinkFile_spec {u : Unit} : ∀ {n : Nat} {fs : SfsFs},
    Sound strict files fs → shrinkFile i n fs = some (u, fs') →
    Sound strict files fs' ∧ Frame files i fs fs' := by
  intro n
  induction n with
  | zero =>
      intro fs h hrun
      rw [shrinkFile, Call.pure_eq_some] at hrun
      obtain ⟨-, rfl⟩ := hrun
      exact ⟨h, Frame.refl files i fs'⟩
  | succ n ih =>
      intro fs h hrun
      rw [shrinkFile, Call.bind_eq_some] at hrun
      obtain ⟨_, fs₁, htruncate, hrun⟩ := hrun
      obtain ⟨hsound, hframe⟩ := sfsBmapTruncateNolock_spec h htruncate
      obtain ⟨hsound', hframe'⟩ := ih hsound hrun
      exact ⟨hsound', hframe.trans hframe'⟩

-- ======================================================== truncating

theorem resizeFile_spec {r : Except Err Unit} {nblks tblks : Nat}
    (h : Sound strict files fs)
    (hrun : resizeFile i nblks tblks fs = some (r, fs')) :
    Sound strict files fs' ∧ Frame files i fs fs' := by
  unfold resizeFile at hrun
  split at hrun
  case isTrue => exact growFile_spec h hrun
  case isFalse =>
      simp only [Call.bind_eq_some, Call.pure_eq_some] at hrun
      obtain ⟨_, fs₁, hshrink, -, rfl⟩ := hrun
      exact shrinkFile_spec h hshrink

/-- `sfs_truncfile` keeps the accounting. The file has the blocks its new
length needs when it succeeds. -/
theorem sfsTruncfile_spec {r : Except Err Unit} {len : Int}
    (h : Sound strict files fs) (hrun : sfsTruncfile i len fs = some (r, fs')) :
    Sound strict files fs' ∧ Frame files i fs fs' ∧ (r.isOk = true → ∃ node',
      fs'.inodes i = some node'
        ∧ node'.din.blocks = roundupDiv len.toNat sfsBlksize) := by
  unfold sfsTruncfile at hrun
  split at hrun
  case isTrue =>
      rw [Call.pure_eq_some] at hrun
      obtain ⟨rfl, rfl⟩ := hrun
      exact ⟨h, Frame.refl files i fs', fun h => by cases h⟩
  case isFalse hlen =>
      rw [not_or, Int.not_lt, Int.not_lt] at hlen
      rw [Call.bind_eq_some] at hrun
      obtain ⟨node, _, hget, hrun⟩ := hrun
      obtain ⟨hnode, hsame⟩ := getSin_run hget
      rw [hsame] at hrun
      split at hrun
      case isTrue =>
          simp only [Call.bind_eq_some, Call.assert_eq_some,
            Call.pure_eq_some] at hrun
          obtain ⟨_, _, ⟨hblocks, rfl⟩, -, rfl⟩ := hrun
          exact ⟨h, Frame.refl files i _, fun _ => ⟨node, hnode, hblocks.symm⟩⟩
      case isFalse =>
          rw [Call.bind_eq_some] at hrun
          obtain ⟨o, fs₁, hresize, hrun⟩ := hrun
          obtain ⟨hsound, hframe⟩ := resizeFile_spec h hresize
          cases o with
          | error e =>
              dsimp only at hrun
              rw [Call.pure_eq_some] at hrun
              obtain ⟨rfl, rfl⟩ := hrun
              exact ⟨hsound, hframe, fun h => by cases h⟩
          | ok _ =>
              simp only [Call.bind_eq_some, Call.assert_eq_some,
                Call.pure_eq_some] at hrun
              obtain ⟨node₁, fs₂, hget₁, _, _, ⟨hblocks, hsame₃⟩, _, _, hset, -,
                rfl⟩ := hrun
              obtain ⟨hnode₁, rfl⟩ := getSin_run hget₁
              rw [hsame₃] at hset
              obtain rfl := setSin_run hset
              obtain ⟨hi, hfits, -⟩ := hsound.inv.loaded hnode₁
              have hsize : len.toNat < 256 ^ 4 := by
                unfold sfsMaxFileSize at hlen
                omega
              let node' : SfsInode := { node₁ with
                din := { node₁.din with size := len.toNat }, dirty := true }
              have hfits' : node'.din.Fits :=
                ⟨hsize, hfits.type, hfits.nlinks, hfits.blocks, hfits.direct,
                  hfits.indirect⟩
              have hsame : SameMap node'.din node₁.din := ⟨rfl, rfl, rfl⟩
              have hcovered : strict ∨ node₁.din.nlinks = 0 →
                  CoveredBy fs₂ i node₁.din.blocks :=
                fun hmust => hsound.covered_loaded hnode₁ hmust
              have hsound' := hsound.setBlocks hsound.inv
                (MapChange.refl (p := fun _ => False) fs₂)
                (Quiet.refl _ fs₂) hnode₁ hsame hfits'
                (fun h => by cases h) hcovered
              exact ⟨hsound', hframe.store hnode₁ rfl, fun _ =>
                ⟨_, withNode_self, hblocks⟩⟩

/-- `vop_truncate`. -/
theorem vopTruncate_spec {r : Except Err Unit} {len : Int}
    (h : Sound strict files fs) (hrun : vopTruncate i len fs = some (r, fs')) :
    Sound strict files fs' ∧ Frame files i fs fs' ∧ (r.isOk = true → ∃ node',
      fs'.inodes i = some node'
        ∧ node'.din.blocks = roundupDiv len.toNat sfsBlksize) := by
  unfold vopTruncate at hrun
  simp only [Call.bind_eq_some, Call.assert_eq_some] at hrun
  obtain ⟨node, _, hget, _, _, ⟨-, rfl⟩, hrun⟩ := hrun
  obtain ⟨-, hsame⟩ := getSin_run hget
  rw [hsame] at hrun
  exact sfsTruncfile_spec h hrun

-- ================================================= growth that stops

/-- The inode with another block count. -/
def SfsInode.withBlocks (node : SfsInode) (blocks : Nat) : SfsInode :=
  { node with din := { node.din with blocks := blocks } }

/-- `sfs_bmap_load_nolock` of the block after the last. -/
theorem loadNext {r : Except Err Nat} (h : Sound True files fs)
    (hnode : fs.inodes i = some node)
    (hrun : sfsBmapLoadNolock i node.din.blocks fs = some (r, fs')) :
    (∃ e, r = .error e) ∧ fs'.inodes = fs.inodes
        ∧ (InIndirect node.din → fs.super.unusedBlocks = 0)
      ∨ r.isOk = true ∧ ∃ node', fs'.inodes i = some node'
        ∧ node'.din.blocks = node.din.blocks + 1
        ∧ (InIndirect node.din →
          node' = node.withBlocks (node.din.blocks + 1)
            ∧ fs.super.unusedBlocks = fs'.super.unusedBlocks + 1)
        ∧ (¬ InIndirect node.din → node'.dirty = true) := by
  unfold sfsBmapLoadNolock at hrun
  simp only [Call.bind_eq_some, Call.assert_eq_some, decide_true] at hrun
  obtain ⟨n, _, hget, _, _, ⟨-, rfl⟩, o, fs₁, hmap, hrun⟩ := hrun
  obtain ⟨hn, hsame⟩ := getSin_run hget
  rw [hnode] at hn
  cases hn
  rw [decide_eq_true rfl, hsame] at hmap
  obtain ⟨-, hchange, -, -⟩ := sfsBmapGetNolock_spec h.inv hmap
  have hempty : ∀ {pos : Pos}, pos.index = some node.din.blocks →
      target fs i pos = 0 := fun hpos =>
    h.covered_loaded hnode (Or.inl trivial) hpos (Nat.le_refl _)
  -- what a block that was found leaves
  have hfound : ∀ ino node₁, o = .ok ino → fs₁.inodes i = some node₁ →
      r = .ok ino ∧ fs' = withNode fs₁ i
        (node₁.withBlocks (node₁.din.blocks + 1)) := by
    rintro ino node₁ rfl hnode₁
    dsimp only at hrun
    rw [if_pos (decide_eq_true rfl)] at hrun
    simp only [Call.bind_eq_some, Call.assert_eq_some, Call.pure_eq_some]
      at hrun
    obtain ⟨_, fs₂, hinuse, _, _, ⟨-, rfl⟩, n₁, _, hget₁, _, _, hset, rfl,
      rfl⟩ := hrun
    obtain ⟨hsame₂, -⟩ := sfsBlockInuse_run hinuse
    obtain ⟨hn₁, hsame₃⟩ := getSin_run hget₁
    rw [hsame₂] at hn₁ hsame₃
    rw [hnode₁] at hn₁
    cases hn₁
    rw [hsame₃] at hset
    exact ⟨rfl, setSin_run hset⟩
  have hfailed : ∀ e, o = .error e → r = .error e ∧ fs' = fs₁ := by
    rintro e rfl
    dsimp only at hrun
    rwa [Call.pure_eq_some] at hrun
  by_cases hnext : InIndirect node.din
  · obtain ⟨hinodes, hcount⟩ := sfsBmapGetNolock_entry h.inv hnode hnext.1
      hnext.2 hempty hmap
    rcases hcount with ⟨⟨e, heq⟩, hfull⟩ | ⟨hok, hcount⟩
    · obtain ⟨rfl, rfl⟩ := hfailed e heq
      exact Or.inl ⟨⟨e, rfl⟩, hinodes, fun _ => hfull⟩
    · cases o with
      | error e => cases hok
      | ok ino =>
          obtain ⟨rfl, rfl⟩ := hfound ino node rfl
            ((congrFun hinodes i).trans hnode)
          exact Or.inr ⟨rfl, _, withNode_self, rfl,
            fun _ => ⟨rfl, hcount⟩, fun hno => absurd hnext hno⟩
  · have hplace : node.din.blocks < sfsNdirect ∨ node.din.indirect = 0 := by
      unfold InIndirect at hnext
      omega
    rcases sfsBmapGetNolock_marks h.inv hnode hplace hempty hmap with
      ⟨⟨e, heq⟩, hinodes⟩ | ⟨hok, node₁, hnode₁, hdirty⟩
    · obtain ⟨rfl, rfl⟩ := hfailed e heq
      exact Or.inl ⟨⟨e, rfl⟩, hinodes, fun hin => absurd hin hnext⟩
    · cases o with
      | error e => cases hok
      | ok ino =>
          obtain ⟨rfl, rfl⟩ := hfound ino node₁ rfl hnode₁
          obtain ⟨n₁, hn₁, -, hblocks⟩ := hchange.node hnode
          rw [hnode₁] at hn₁
          cases hn₁
          exact Or.inr ⟨rfl, _, withNode_self,
            congrArg (· + 1) hblocks, fun hin => absurd hin hnext,
            fun _ => hdirty⟩

/-- What growth that stops leaves of the inode: with the next block in the
indirect block all free blocks are used, else it is as it was or marked. -/
theorem growFile_stops {e : Err} : ∀ {n : Nat} {fs : SfsFs} {node : SfsInode},
    Sound True files fs → fs.inodes i = some node →
    growFile i n node.din.blocks fs = some (.error e, fs') →
    InIndirect node.din ∧ fs.super.unusedBlocks < n ∧ fs'.inodes i
        = some (node.withBlocks (node.din.blocks + fs.super.unusedBlocks))
      ∨ ¬ InIndirect node.din ∧ (fs'.inodes i = some node
        ∨ ∃ node', fs'.inodes i = some node' ∧ node'.dirty = true) := by
  intro n
  induction n with
  | zero =>
      intro fs node h hnode hrun
      rw [growFile, Call.pure_eq_some] at hrun
      cases hrun.1
  | succ n ih =>
      intro fs node h hnode hrun
      rw [growFile, Call.bind_eq_some] at hrun
      obtain ⟨o, fs₁, hload, hrun⟩ := hrun
      obtain ⟨hsound, -⟩ := sfsBmapLoadNolock_spec h hload
      rcases loadNext h hnode hload with ⟨⟨e', rfl⟩, hinodes, hfull⟩
        | ⟨hok, node₁, hnode₁, hblocks, hentry, hmarks⟩
      · dsimp only at hrun
        rw [Call.pure_eq_some] at hrun
        obtain ⟨-, rfl⟩ := hrun
        have hkept : fs'.inodes i = some node := by
          rw [hinodes]
          exact hnode
        by_cases hnext : InIndirect node.din
        · refine Or.inl ⟨hnext, ?_, ?_⟩
          · rw [hfull hnext]
            exact Nat.succ_pos n
          · rw [hfull hnext]
            exact hkept
        · exact Or.inr ⟨hnext, Or.inl hkept⟩
      · cases o with
        | error e' => cases hok
        | ok ino =>
            dsimp only at hrun
            rw [← hblocks] at hrun
            have hrest := ih hsound hnode₁ hrun
            by_cases hnext : InIndirect node.din
            · obtain ⟨rfl, hcount⟩ := hentry hnext
              have hnext₁ : InIndirect
                  (node.withBlocks (node.din.blocks + 1)).din :=
                ⟨Nat.le_succ_of_le hnext.1, hnext.2⟩
              rcases hrest with ⟨-, hlt, hnode'⟩ | ⟨hno, -⟩
              · refine Or.inl ⟨hnext, by omega, ?_⟩
                have hsum : node.din.blocks + 1 + fs₁.super.unusedBlocks
                    = node.din.blocks + fs.super.unusedBlocks := by omega
                rw [← hsum]
                exact hnode'
              · exact absurd hnext₁ hno
            · have hdirty := hmarks hnext
              refine Or.inr ⟨hnext, Or.inr ?_⟩
              rcases hrest with ⟨-, -, hnode'⟩ | ⟨-, hnode' | hnode'⟩
              · exact ⟨_, hnode', hdirty⟩
              · exact ⟨node₁, hnode', hdirty⟩
              · exact hnode'

/-- With too few free blocks growth stops. -/
theorem growFile_full {r : Except Err Unit} : ∀ {n : Nat} {fs : SfsFs}
    {node : SfsInode}, Sound True files fs → fs.inodes i = some node →
    InIndirect node.din → fs.super.unusedBlocks < n →
    growFile i n node.din.blocks fs = some (r, fs') →
    ∃ e, r = .error e := by
  intro n
  induction n with
  | zero => exact fun _ _ _ hlt => absurd hlt (Nat.not_lt_zero _)
  | succ n ih =>
      intro fs node h hnode hnext hlt hrun
      rw [growFile, Call.bind_eq_some] at hrun
      obtain ⟨o, fs₁, hload, hrun⟩ := hrun
      obtain ⟨hsound, -⟩ := sfsBmapLoadNolock_spec h hload
      rcases loadNext h hnode hload with ⟨⟨e, rfl⟩, -, -⟩
        | ⟨hok, node₁, hnode₁, hblocks, hentry, -⟩
      · dsimp only at hrun
        rw [Call.pure_eq_some] at hrun
        exact ⟨e, hrun.1⟩
      · cases o with
        | error e => cases hok
        | ok ino =>
            dsimp only at hrun
            rw [← hblocks] at hrun
            obtain ⟨rfl, hcount⟩ := hentry hnext
            have hnext₁ : InIndirect
                (node.withBlocks (node.din.blocks + 1)).din :=
              ⟨Nat.le_succ_of_le hnext.1, hnext.2⟩
            exact ih hsound hnode₁ hnext₁ (by omega) hrun

theorem OnDisk.of_dirty (hnode : fs.inodes i = some node)
    (hdirty : node.dirty = true) : OnDisk fs i := by
  intro n hn hclean
  rw [hnode] at hn
  cases hn
  rw [hdirty] at hclean
  cases hclean

theorem OnDisk.congr (h : OnDisk fs i) (hinodes : fs'.inodes i = fs.inodes i)
    (hdisk : fs'.disk i = fs.disk i) : OnDisk fs' i := by
  intro n hn hclean
  rw [hinodes] at hn
  rw [hdisk]
  exact h n hn hclean

/-- `sfs_truncfile` that is not torn. -/
theorem sfsTruncfile_onDisk {r : Except Err Unit} {len : Int}
    (h : Sound True files fs) (hdisk : OnDisk fs i) (hno : ¬ Torn fs i len)
    (hrun : sfsTruncfile i len fs = some (r, fs')) : OnDisk fs' i := by
  unfold sfsTruncfile at hrun
  split at hrun
  case isTrue =>
      rw [Call.pure_eq_some] at hrun
      obtain ⟨-, rfl⟩ := hrun
      exact hdisk
  case isFalse hlen =>
      rw [not_or, Int.not_lt, Int.not_lt] at hlen
      rw [Call.bind_eq_some] at hrun
      obtain ⟨node, _, hget, hrun⟩ := hrun
      obtain ⟨hnode, hsame⟩ := getSin_run hget
      rw [hsame] at hrun
      split at hrun
      case isTrue =>
          simp only [Call.bind_eq_some, Call.assert_eq_some,
            Call.pure_eq_some] at hrun
          obtain ⟨_, _, ⟨-, rfl⟩, -, rfl⟩ := hrun
          exact hdisk
      case isFalse hsize =>
          rw [Call.bind_eq_some] at hrun
          obtain ⟨o, fs₁, hresize, hrun⟩ := hrun
          obtain ⟨-, hframe⟩ := resizeFile_spec h hresize
          have hin := (h.inv.loaded hnode).1
          have hblock : fs₁.disk i = fs.disk i :=
            hframe.quiet.disk (Or.inl hin)
          cases o with
          | ok _ =>
              simp only [Call.bind_eq_some, Call.assert_eq_some,
                Call.pure_eq_some] at hrun
              obtain ⟨node₁, fs₂, _, _, _, ⟨-, rfl⟩, _, _, hset, -, rfl⟩ :=
                hrun
              obtain rfl := setSin_run hset
              exact OnDisk.of_dirty withNode_self rfl
          | error e =>
              dsimp only at hrun
              rw [Call.pure_eq_some] at hrun
              obtain ⟨-, rfl⟩ := hrun
              have hkept : fs'.inodes i = some node → OnDisk fs' i := fun hn =>
                hdisk.congr (hn.trans hnode.symm) hblock
              unfold resizeFile at hresize
              split at hresize
              case isFalse =>
                  simp only [Call.bind_eq_some, Call.pure_eq_some] at hresize
                  obtain ⟨_, _, _, heq, -⟩ := hresize
                  cases heq
              case isTrue hlt =>
                  rcases growFile_stops h hnode hresize with
                    ⟨hnext, hfull, hnode'⟩ | ⟨-, hnode' | ⟨n', hn', hdirty⟩⟩
                  · by_cases hclean : node.dirty = true
                    · exact OnDisk.of_dirty hnode' hclean
                    · by_cases hnone : fs.super.unusedBlocks = 0
                      · rw [hnone] at hnode'
                        exact hkept hnode'
                      · refine absurd ⟨node, hnode,
                          Bool.eq_false_iff.2 hclean, hnext,
                          Nat.pos_of_ne_zero hnone, hlen.1, hlen.2,
                          fun heq => hsize ?_, by omega⟩ hno
                        omega
                  · exact hkept hnode'
                  · exact OnDisk.of_dirty hn' hdirty

/-- `vop_truncate` that is not torn. -/
theorem vopTruncate_onDisk {r : Except Err Unit} {len : Int}
    (h : Sound True files fs) (hdisk : OnDisk fs i) (hno : ¬ Torn fs i len)
    (hrun : vopTruncate i len fs = some (r, fs')) : OnDisk fs' i := by
  unfold vopTruncate at hrun
  simp only [Call.bind_eq_some, Call.assert_eq_some] at hrun
  obtain ⟨node, _, hget, _, _, ⟨-, rfl⟩, hrun⟩ := hrun
  obtain ⟨-, hsame⟩ := getSin_run hget
  rw [hsame] at hrun
  exact sfsTruncfile_onDisk h hdisk hno hrun

/-- To remove blocks takes none. -/
theorem not_torn_zero : ¬ Torn fs i 0 := by
  rintro ⟨node, -, -, -, -, -, -, -, hlt⟩
  have hzero : roundupDiv (Int.toNat 0) sfsBlksize = 0 := by decide
  omega

/-- `sfs_truncfile` that is torn leaves the inode not dirty and unlike that
on disk. -/
theorem sfsTruncfile_torn {r : Except Err Unit} {len : Int}
    (h : Sound True files fs) (hdisk : OnDisk fs i) (htorn : Torn fs i len)
    (hrun : sfsTruncfile i len fs = some (r, fs')) : ¬ OnDisk fs' i := by
  obtain ⟨node, hnode, hclean, hnext, hfree, hlo, hhi, hsize, hfull⟩ := htorn
  unfold sfsTruncfile at hrun
  rw [if_neg (by omega), Call.bind_eq_some] at hrun
  obtain ⟨n, _, hget, hrun⟩ := hrun
  obtain ⟨hn, hsame⟩ := getSin_run hget
  rw [hnode] at hn
  cases hn
  have hsize' : ¬ node.din.size = len.toNat := by omega
  dsimp only at hrun
  rw [hsame, if_neg hsize', Call.bind_eq_some] at hrun
  obtain ⟨o, fs₁, hresize, hrun⟩ := hrun
  obtain ⟨-, hframe⟩ := resizeFile_spec h hresize
  have hblock : fs₁.disk i = fs.disk i :=
    hframe.quiet.disk (Or.inl (h.inv.loaded hnode).1)
  unfold resizeFile at hresize
  rw [if_pos (by omega)] at hresize
  obtain ⟨e, rfl⟩ := growFile_full h hnode hnext (by omega) hresize
  dsimp only at hrun
  rw [Call.pure_eq_some] at hrun
  obtain ⟨-, rfl⟩ := hrun
  rcases growFile_stops h hnode hresize with ⟨-, -, hnode'⟩ | ⟨hno, -⟩
  · intro hdisk'
    have hdin := hdisk' _ hnode' hclean
    rw [hblock, ← hdisk node hnode hclean] at hdin
    have hblocks := congrArg DiskInode.blocks hdin
    have hblocks' : node.din.blocks + fs.super.unusedBlocks
        = node.din.blocks := hblocks
    omega
  · exact absurd hnext hno

/-- `vop_truncate` that is torn. -/
theorem vopTruncate_torn {r : Except Err Unit} {len : Int}
    (h : Sound True files fs) (hdisk : OnDisk fs i) (htorn : Torn fs i len)
    (hrun : vopTruncate i len fs = some (r, fs')) : ¬ OnDisk fs' i := by
  unfold vopTruncate at hrun
  simp only [Call.bind_eq_some, Call.assert_eq_some] at hrun
  obtain ⟨node, _, hget, _, _, ⟨-, rfl⟩, hrun⟩ := hrun
  obtain ⟨-, hsame⟩ := getSin_run hget
  rw [hsame] at hrun
  exact sfsTruncfile_torn h hdisk htorn hrun

end Ucore.Sfs
