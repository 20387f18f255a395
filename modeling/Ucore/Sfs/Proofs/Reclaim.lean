/-
Inodes enter and leave memory. One that leaves it without links leaves the
volume, together with its indirect block.
-/
import Ucore.Sfs.Proofs.Resize

namespace Ucore.Sfs

variable {fs fs' fs₁ : SfsFs} {files : Finset Nat} {held : Finset Nat}
  {i : Nat} {node : SfsInode} {strict : Prop}

-- =================================================== what is written

/-- From `fs` to `fs'` only inode `i` is written, in memory or on disk, and
the two still agree if they did. -/
structure Writes (strict : Prop) (files : Finset Nat) (i : Nat)
    (fs fs' : SfsFs) : Prop where
  others : ∀ {i'}, i' ≠ i → fs'.inodes i' = fs.inodes i'
  quiet : Quiet (files.erase i) fs fs'
  onDisk : strict → OnDisk fs i → OnDisk fs' i

theorem Writes.refl (strict : Prop) (files : Finset Nat) (i : Nat)
    (fs : SfsFs) : Writes strict files i fs fs :=
  ⟨fun _ => rfl, Quiet.refl _ fs, fun _ => id⟩

theorem Writes.trans (h : Writes strict files i fs fs₁)
    (h' : Writes strict files i fs₁ fs') :
    Writes strict files i fs fs' where
  others hne := (h'.others hne).trans (h.others hne)
  quiet := h.quiet.trans h'.quiet
  onDisk hs hi := h'.onDisk hs (h.onDisk hs hi)

theorem Frame.writes (h : Frame files i fs fs')
    (hdisk : strict → OnDisk fs i → OnDisk fs' i) :
    Writes strict files i fs fs' :=
  ⟨h.others, h.quiet.mono (Finset.erase_subset i files), hdisk⟩

-- ============================================================ counts

/-- A store to the counts of an inode. -/
theorem Sound.setCounts (h : Sound strict files fs)
    (hnode : fs.inodes i = some node) (reclaims refs : Int) :
    let node' := { node with reclaimCount := reclaims, refCount := refs }
    Sound strict files (withNode fs i node')
      ∧ Writes strict files i fs (withNode fs i node') := by
  intro node'
  obtain ⟨-, hfits, hclean⟩ := h.inv.loaded hnode
  have hcovered : strict ∨ node.din.nlinks = 0 →
      CoveredBy fs i node.din.blocks := fun hmust => h.covered_loaded hnode hmust
  refine ⟨h.setBlocks h.inv (MapChange.refl (p := fun _ => False) fs)
    (Quiet.refl _ fs) hnode (SameMap.refl node.din) hfits hclean hcovered,
    fun hne => withNode_ne hne, Quiet.of_memory rfl rfl rfl rfl, ?_⟩
  intro _ hdisk n hn hd
  rw [withNode_self] at hn
  cases hn
  exact hdisk node hnode hd

theorem inodeRefInc_spec {refs : Int} (h : Sound strict files fs)
    (hrun : inodeRefInc i fs = some (refs, fs')) :
    Sound strict files fs' ∧ Writes strict files i fs fs' := by
  unfold inodeRefInc at hrun
  simp only [Call.bind_eq_some, Call.pure_eq_some] at hrun
  obtain ⟨node, _, hget, _, _, hset, -, rfl⟩ := hrun
  obtain ⟨hnode, rfl⟩ := getSin_run hget
  obtain rfl := setSin_run hset
  exact h.setCounts hnode _ _

-- =========================================================== loading

/-- `lookup_sfs_nolock` finds what is in memory. -/
theorem lookupSfsNolock_spec {found : Bool} (h : Sound strict files fs)
    (hrun : lookupSfsNolock i fs = some (found, fs')) :
    Sound strict files fs' ∧ Writes strict files i fs fs'
      ∧ (found = false → fs' = fs ∧ fs.inodes i = none) := by
  unfold lookupSfsNolock at hrun
  simp only [Call.bind_eq_some, Call.get_eq_some] at hrun
  obtain ⟨_, fs₀, ⟨rfl, rfl⟩, hrun⟩ := hrun
  cases hnode₀ : fs₀.inodes i with
  | none =>
      rw [hnode₀, Call.pure_eq_some] at hrun
      obtain ⟨rfl, rfl⟩ := hrun
      exact ⟨h, Writes.refl _ _ _ _, fun _ => ⟨rfl, rfl⟩⟩
  | some node₀ =>
      rw [hnode₀] at hrun
      simp only [Call.bind_eq_some] at hrun
      obtain ⟨refs, fs₁, hinc, hrun⟩ := hrun
      obtain ⟨h₁, hwrites₁⟩ := inodeRefInc_spec h hinc
      split at hrun
      case isFalse =>
          rw [Call.pure_eq_some] at hrun
          obtain ⟨rfl, rfl⟩ := hrun
          exact ⟨h₁, hwrites₁, fun h => by cases h⟩
      case isTrue =>
          simp only [Call.bind_eq_some, Call.pure_eq_some] at hrun
          obtain ⟨node, _, hget, _, _, hset, rfl, rfl⟩ := hrun
          obtain ⟨hnode, rfl⟩ := getSin_run hget
          obtain rfl := setSin_run hset
          obtain ⟨h₂, hwrites₂⟩ := h₁.setCounts hnode
            (node.reclaimCount + 1) node.refCount
          exact ⟨h₂, hwrites₁.trans hwrites₂, fun h => by cases h⟩

/-- `sfs_load_inode` of a file. -/
theorem sfsLoadInode_spec {u : Unit} (h : Sound strict files fs) (hi : i ∈ files)
    (hrun : sfsLoadInode i fs = some (u, fs')) :
    Sound strict files fs' ∧ Writes strict files i fs fs' := by
  unfold sfsLoadInode at hrun
  rw [Call.bind_eq_some] at hrun
  obtain ⟨found, fs₁, hlookup, hrun⟩ := hrun
  obtain ⟨h₁, hwrites₁, hmissing⟩ := lookupSfsNolock_spec h hlookup
  split at hrun
  case isTrue =>
      rw [Call.pure_eq_some] at hrun
      obtain ⟨-, rfl⟩ := hrun
      exact ⟨h₁, hwrites₁⟩
  case isFalse hfound =>
      obtain ⟨hsame₁, hnone⟩ := hmissing (Bool.eq_false_iff.mpr hfound)
      unfold sfsCreateInode at hrun
      simp only [Call.bind_eq_some, Call.assert_eq_some] at hrun
      obtain ⟨_, fs₂, hinuse, _, _, ⟨-, rfl⟩, buf, fs₃, hread, _, _,
        ⟨hlinks, rfl⟩, _, _, ⟨-, hsame₄⟩, hset⟩ := hrun
      obtain ⟨hsame₂, -⟩ := sfsBlockInuse_run hinuse
      obtain ⟨hsame₃, hbuf⟩ := sfsRbuf_run hread
      have hset' := setSin_run hset
      rw [hsame₂] at hsame₃ hbuf
      rw [hsame₄, hsame₃, hsame₁] at hset'
      rw [hsame₁] at hbuf
      have hdin : DiskInode.ofBytes buf = inodeOf fs i := by
        rw [inodeOf_unloaded hnone, hbuf]
        exact DiskInode.ofBytes_congr fun k _ => by rw [Nat.zero_add]
      subst hset'
      let node : SfsInode :=
        { din := DiskInode.ofBytes buf, dirty := false, reclaimCount := 1,
          refCount := 1 }
      have hmap : SameMap node.din (inodeOf fs i) := SameMap.of_eq hdin
      have hfits : node.din.Fits := DiskInode.ofBytes_fits buf
      obtain ⟨hinv, htarget⟩ := h.inv.setMap hi hmap hfits fun _ =>
        SameMap.of_eq (hdin.trans (inodeOf_unloaded hnone))
      have hothers : ∀ {i'}, i' ≠ i →
          (withNode fs i node).inodes i' = fs.inodes i' :=
        fun hne => withNode_ne hne
      have hquiet : ∀ f, Quiet f fs (withNode fs i node) := fun f =>
        Quiet.of_memory rfl rfl rfl rfl
      refine ⟨h.of_others hinv hothers (hquiet _)
        (fun _ _ pos => htarget _ pos) ?_, hothers, hquiet _, ?_⟩
      · intro hmust pos index hpos hle
        rw [mustCover_loaded withNode_self] at hmust
        have hs : strict := hmust.resolve_right hlinks
        rw [inodeOf_loaded withNode_self] at hle
        rw [htarget]
        exact h.covered hi (Or.inl hs) hpos (hdin ▸ hle)
      · intro _ _ n hn _
        rw [withNode_self] at hn
        cases hn
        exact hdin.trans (inodeOf_unloaded hnone)

-- ====================================================== writing back

/-- Writing the block of an inode in memory that is dirty changes no
target. -/
theorem Inv.writeInode (h : Inv held ⟨fs, files⟩)
    (hnode : fs.inodes i = some node) (hdirty : node.dirty = true)
    (block : Nat → UInt8) :
    let fs₁ := { fs with disk := Function.update fs.disk i block }
    Inv held ⟨fs₁, files⟩
      ∧ ∀ i' ∈ files, ∀ pos, target fs₁ i' pos = target fs i' pos := by
  intro fs₁
  have hi := (h.loaded hnode).1
  have hother : ∀ d, d ≠ i → fs₁.disk d = fs.disk d := fun d hd =>
    Function.update_of_ne hd _ _
  have hsame : ∀ i', inodeOf fs₁ i' = inodeOf fs i' := by
    intro i'
    refine inodeOf_congr rfl fun hnone => hother i' ?_
    rintro rfl
    rw [hnode] at hnone
    cases hnone
  have htarget : ∀ i' ∈ files, ∀ pos, target fs₁ i' pos
      = target fs i' pos := by
    intro i' hi' pos
    refine target_congr (SameMap.of_eq (hsame i')) (fun hind j => ?_) pos
    rw [entryAt, entryAt, hother _ (h.ne_indirect_block hi
      (Inv.refers_indirect hi' hind)).symm]
  refine ⟨h.of_exact (h.exact.congr (refers_congr htarget)
    fun _ => Iff.rfl) rfl rfl (congrArg DiskInode.type (hsame _)) ?_, htarget⟩
  intro i' n hn
  obtain ⟨hin, hfits, hclean⟩ := h.loaded (i := i') hn
  refine ⟨hin, hfits, fun hd => ?_⟩
  rw [hother]
  · exact hclean hd
  · rintro rfl
    rw [show fs₁.inodes i' = some node from hnode] at hn
    cases hn
    rw [hdirty] at hd
    cases hd

/-- An inode but the root is in no reserved block. -/
theorem Inv.ne_reserved {b : Nat} (h : Inv held ⟨fs, files⟩) (hi : i ∈ files)
    (hb : b < reservedBlocks fs.super) (hroot : b ≠ sfsBlknRoot) : b ≠ i := by
  rintro rfl
  obtain ⟨-, -, hlo | heq⟩ :=
    h.exact.used_iff.2 (Or.inl ⟨_, h.refers_self hi⟩)
  · exact absurd hb (Nat.not_lt.2 hlo)
  · exact hroot heq

/-- `sfs_fsync`: the inode is on disk. -/
theorem sfsFsync_spec {u : Unit} (h : Sound strict files fs)
    (hrun : sfsFsync i fs = some (u, fs')) :
    Sound strict files fs' ∧ Writes strict files i fs fs'
      ∧ ∀ node, fs.inodes i = some node → ∃ node',
        fs'.inodes i = some node' ∧ node'.dirty = false
          ∧ node'.din = node.din := by
  unfold sfsFsync at hrun
  rw [Call.bind_eq_some] at hrun
  obtain ⟨node, fs₁, hget, hrun⟩ := hrun
  obtain ⟨hnode, hsame⟩ := getSin_run hget
  rw [hsame] at hrun
  split at hrun
  case isFalse hclean =>
      rw [Call.pure_eq_some] at hrun
      obtain ⟨-, rfl⟩ := hrun
      refine ⟨h, Writes.refl _ _ _ _, fun n hn => ⟨n, hn, ?_, rfl⟩⟩
      rw [hnode] at hn
      cases hn
      exact Bool.eq_false_iff.mpr hclean
  case isTrue hdirty =>
      rw [Call.bind_eq_some] at hrun
      obtain ⟨_, fs₂, hset, hwrite⟩ := hrun
      obtain rfl := setSin_run hset
      obtain rfl := sfsWbuf_run hwrite
      let node' : SfsInode := { node with dirty := false }
      let block := storeBytes (fs.disk i) node.din.toBytes sizeofDiskInode 0
      let fs₃ := { fs with disk := Function.update fs.disk i block }
      -- the block is written first here: the store to memory comes after it
      obtain ⟨hinv, htarget⟩ := h.inv.writeInode hnode hdirty block
      have hnode₃ : fs₃.inodes i = some node := hnode
      obtain ⟨hi, hfits, -⟩ := h.inv.loaded hnode
      have hblock : DiskInode.ofBytes (fs₃.disk i) = node.din := by
        have hread : DiskInode.ofBytes block
            = DiskInode.ofBytes node.din.toBytes :=
          DiskInode.ofBytes_congr fun k hk => by
            show storeBytes _ _ _ 0 k = _
            rw [storeBytes, if_pos ⟨Nat.zero_le k, by omega⟩, Nat.sub_zero]
        show DiskInode.ofBytes (Function.update fs.disk i block i) = node.din
        rw [Function.update_self, hread, DiskInode.ofBytes_toBytes hfits]
      have hchange : MapChange files i (fun _ => False) fs fs₃ :=
        MapChange.of_inodes rfl fun i' hi' pos _ => htarget i' hi' pos
      have hcovered : strict ∨ node.din.nlinks = 0 →
          CoveredBy fs₃ i node.din.blocks := by
        intro hmust pos index hpos hle
        rw [htarget i hi]
        exact h.covered_loaded hnode hmust hpos hle
      have hquiet : Quiet (files.erase i) fs fs₃ := by
        refine ⟨fun {b} hb => Function.update_of_ne ?_ _ _, rfl,
          Or.inr ⟨rfl, rfl, rfl⟩⟩
        rcases hb with hb | ⟨hb, hroot⟩
        · exact Finset.ne_of_mem_erase hb
        · exact h.inv.ne_reserved hi hb hroot
      have hsound := h.setBlocks hinv hchange hquiet hnode₃
        (SameMap.refl node'.din) hfits (fun _ => SameMap.of_eq hblock.symm)
        hcovered
      refine ⟨hsound, ⟨fun hne => withNode_ne hne,
        hquiet.trans (Quiet.of_memory rfl rfl rfl rfl), ?_⟩,
        fun n hn => ⟨node', withNode_self, rfl, ?_⟩⟩
      · intro _ _ n hn _
        have hself : (withNode fs₃ i node').inodes i = some n := hn
        rw [withNode_self] at hself
        cases hself
        exact hblock.symm
      · rw [hnode] at hn
        cases hn
        rfl

-- ======================================================== reclaiming

/-- The file system without an inode in memory. -/
def withoutNode (fs : SfsFs) (i : Nat) : SfsFs :=
  { fs with inodes := Function.update fs.inodes i none }

theorem withoutNode_self : (withoutNode fs i).inodes i = none :=
  Function.update_self i _ _

theorem withoutNode_ne {i' : Nat} (h : i' ≠ i) :
    (withoutNode fs i).inodes i' = fs.inodes i' :=
  Function.update_of_ne h _ _

/-- The inodes in memory without one of them. -/
theorem loaded_withoutNode {i' : Nat} {n : SfsInode}
    (hn : (withoutNode fs i).inodes i' = some n) :
    i' ≠ i ∧ fs.inodes i' = some n := by
  by_cases heq : i' = i
  · rw [heq, withoutNode_self] at hn
    cases hn
  · rw [withoutNode_ne heq] at hn
    exact ⟨heq, hn⟩

theorem target_withoutNode_ne {i' : Nat} (h : i' ≠ i) (pos : Pos) :
    target (withoutNode fs i) i' pos = target fs i' pos := by
  have hsame : inodeOf (withoutNode fs i) i' = inodeOf fs i' :=
    inodeOf_congr (withoutNode_ne h) fun _ => rfl
  exact target_congr (SameMap.of_eq hsame) (fun _ _ => rfl) pos

/-- An inode that is on disk leaves memory. -/
theorem Sound.unload (h : Sound strict files fs)
    (hnode : fs.inodes i = some node) (hclean : node.dirty = false)
    (hdisk : strict → OnDisk fs i) :
    Sound strict files (withoutNode fs i) := by
  have hsame : ∀ i', SameMap (inodeOf (withoutNode fs i) i')
      (inodeOf fs i') := by
    intro i'
    by_cases heq : i' = i
    · subst heq
      rw [inodeOf_unloaded withoutNode_self, inodeOf_loaded hnode]
      exact ((h.inv.loaded hnode).2.2 hclean).symm
    · exact SameMap.of_eq (inodeOf_congr (withoutNode_ne heq) fun _ => rfl)
  have htarget : ∀ i' pos, target (withoutNode fs i) i' pos
      = target fs i' pos := fun i' =>
    target_congr (hsame i') fun _ _ => rfl
  have hinv : Inv ∅ ⟨withoutNode fs i, files⟩ :=
    h.inv.of_exact (h.inv.exact.congr (refers_congr fun i' _ => htarget i')
      fun _ => Iff.rfl) rfl rfl (hsame _).type fun {i' n} hn =>
        h.inv.loaded (loaded_withoutNode hn).2
  refine h.of_others hinv (fun hne => withoutNode_ne hne)
    (Quiet.of_memory rfl rfl rfl rfl) (fun _ _ pos => htarget _ pos) ?_
  intro hmust pos index hpos hle
  have hs : strict := by
    rcases hmust with hs | ⟨n, hn, -⟩
    · exact hs
    · rw [withoutNode_self] at hn
      cases hn
  rw [inodeOf_unloaded withoutNode_self,
    show (withoutNode fs i).disk i = fs.disk i from rfl,
    ← hdisk hs node hnode hclean] at hle
  rw [htarget]
  exact h.covered_loaded hnode (Or.inl hs) hpos hle

/-- What an inode whose map is empty refers to. -/
theorem refers_empty {x : Nat × Pos} {c : Nat} (hcovered : CoveredBy fs i 0)
    (hx : Refers ⟨fs, files⟩ x c) (hi : x.1 = i) :
    c = i ∨ c = (inodeOf fs i).indirect := by
  obtain ⟨i', pos⟩ := x
  obtain ⟨-, ht, hc⟩ := hx
  dsimp only at hi ht
  subst hi
  cases pos with
  | self => exact Or.inl ht.symm
  | direct k =>
      exact absurd (ht.symm.trans (hcovered rfl (Nat.zero_le _))) hc
  | indirect => exact Or.inr ht.symm
  | entry j =>
      exact absurd (ht.symm.trans (hcovered rfl (Nat.zero_le _))) hc

/-- The blocks of an inode whose map is empty. -/
def ownBlocks (i : Nat) (din : DiskInode) : Finset Nat :=
  insert i (if din.indirect = 0 then ∅ else {din.indirect})

/-- An inode whose map is empty leaves the volume: its block and its
indirect block come in hand. -/
theorem Inv.forget (h : Inv ∅ ⟨fs, files⟩) (hnode : fs.inodes i = some node)
    (hcovered : CoveredBy fs i 0) (hroot : sfsBlknRoot ≠ i) :
    Inv (ownBlocks i node.din) ⟨withoutNode fs i, files.erase i⟩ := by
  have hi := (h.loaded hnode).1
  have hself := h.refers_self hi
  have hind : (inodeOf fs i).indirect = node.din.indirect := by
    rw [inodeOf_loaded hnode]
  have hrefers : ∀ y c, Refers ⟨withoutNode fs i, files.erase i⟩ y c
      ↔ (Refers ⟨fs, files⟩ y c ∧ c ≠ i) ∧ c ≠ node.din.indirect := by
    intro y c
    constructor
    · rintro ⟨hin, ht, hc⟩
      obtain ⟨hne, hin⟩ := Finset.mem_erase.mp hin
      dsimp only at ht
      rw [target_withoutNode_ne hne] at ht
      have hy : Refers ⟨fs, files⟩ y c := ⟨hin, ht, hc⟩
      refine ⟨⟨hy, ?_⟩, ?_⟩
      · rintro rfl
        exact hne (congrArg Prod.fst (h.exact.inj hy hself))
      · rintro rfl
        rw [← hind] at hy hc
        exact hne (congrArg Prod.fst
          (h.exact.inj hy (Inv.refers_indirect hi hc)))
    · rintro ⟨⟨hy, hci⟩, hcind⟩
      have hne : y.1 ≠ i := by
        intro heq
        rcases refers_empty hcovered hy heq with hc | hc
        · exact hci hc
        · exact hcind (hc.trans hind)
      refine ⟨Finset.mem_erase.mpr ⟨hne, hy.1⟩, ?_, hy.2.2⟩
      exact (target_withoutNode_ne hne y.2).trans hy.2.1
  have h₁ : Exact (fun y c => Refers ⟨fs, files⟩ y c ∧ c ≠ i) {i} (Used fs) :=
    h.exact.remove hself fun _ _ => Iff.rfl
  have h₂ : Exact (Refers ⟨withoutNode fs i, files.erase i⟩)
      (ownBlocks i node.din) (Used fs) := by
    unfold ownBlocks
    split
    case isTrue hzero =>
        refine h₁.congr (fun y c => ?_) fun _ => Iff.rfl
        rw [hrefers, hzero]
        exact ⟨fun hy => hy.1, fun hy => ⟨hy, hy.1.2.2⟩⟩
    case isFalse hne =>
        rw [← hind] at hne
        have hix : Refers ⟨fs, files⟩ (i, .indirect)
            (inodeOf fs i).indirect := Inv.refers_indirect hi hne
        have hdiff : node.din.indirect ≠ i := by
          rw [← hind]
          exact (h.ne_indirect_block hi hix).symm
        rw [hind] at hix
        rw [Finset.pair_comm]
        exact h₁.remove ⟨hix, hdiff⟩ hrefers
  have hsame : inodeOf (withoutNode fs i) sfsBlknRoot
      = inodeOf fs sfsBlknRoot :=
    inodeOf_congr (withoutNode_ne hroot) fun _ => rfl
  refine ⟨h₂, h.map.congr rfl rfl, ?_, Finset.mem_erase.mpr ⟨hroot, h.root⟩,
    ?_, ?_⟩
  · exact fun hin => h.files_pos (Finset.mem_of_mem_erase hin)
  · dsimp only
    rw [hsame]
    exact h.root_dir
  · intro i' n hn
    obtain ⟨hne, hn⟩ := loaded_withoutNode hn
    obtain ⟨hin, hfits, hclean⟩ := h.loaded hn
    exact ⟨Finset.mem_erase.mpr ⟨hne, hin⟩, hfits, hclean⟩

/-- The inodes left when one leaves memory. -/
def filesWithout (files : Finset Nat) (i : Nat) (din : DiskInode) :
    Finset Nat :=
  if din.nlinks = 0 then files.erase i else files

/-- An inode whose map is empty is gone from memory. -/
theorem Sound.forget {i' : Nat} (h : Sound strict files fs)
    (hin : i' ∈ files.erase i) (hmust : MustCover strict (withoutNode fs i) i') :
    CoveredBy (withoutNode fs i) i' (inodeOf (withoutNode fs i) i').blocks := by
  obtain ⟨hne, hin⟩ := Finset.mem_erase.mp hin
  intro pos index hpos hle
  rw [inodeOf_congr (withoutNode_ne hne) fun _ => rfl] at hle
  rw [target_withoutNode_ne hne]
  exact h.covered hin (hmust.congr (withoutNode_ne hne)) hpos hle

/-- Where blocks that no inode refers to are freed. -/
theorem Sound.of_free (hinv : Inv ∅ ⟨fs', files⟩)
    (hinodes : fs'.inodes = fs.inodes) (hdisk : fs'.disk = fs.disk)
    (hcovered : ∀ {i}, i ∈ files → MustCover strict fs i →
      CoveredBy fs i (inodeOf fs i).blocks) : Sound strict files fs' := by
  refine ⟨hinv, fun {i'} hin hmust pos index hpos hle => ?_⟩
  rw [inodeOf_congr (congrFun hinodes i') fun _ => congrFun hdisk i'] at hle
  rw [target_of_eq hinodes hdisk]
  exact hcovered hin (hmust.congr (congrFun hinodes i')) hpos hle

/-- An inode without links and blocks leaves memory and disk. -/
theorem Sound.remove {u : Unit} (h : Sound strict files fs)
    (hnode : fs.inodes i = some node) (hcovered : CoveredBy fs i 0)
    (hroot : sfsBlknRoot ≠ i)
    (hfree : sfsBlockFree i (withoutNode fs i) = some (u, fs₁))
    (hrest : (if node.din.indirect ≠ 0 then sfsBlockFree node.din.indirect
      else pure ()) fs₁ = some (u, fs')) :
    Sound strict (files.erase i) fs' ∧ Writes strict files i fs fs'
      ∧ fs'.inodes i = none := by
  have hinv := h.inv.forget hnode hcovered hroot
  -- what is left to show of the state after the blocks were freed
  suffices hfreed : Inv ∅ ⟨fs', files.erase i⟩
      ∧ fs'.inodes = (withoutNode fs i).inodes
      ∧ fs'.disk = (withoutNode fs i).disk
      ∧ Quiet (files.erase i) (withoutNode fs i) fs' by
    obtain ⟨hinv', hinodes, hdisk, hquiet⟩ := hfreed
    have hnone : fs'.inodes i = none := by
      rw [hinodes]
      exact withoutNode_self
    have hunload : Quiet (files.erase i) fs (withoutNode fs i) :=
      Quiet.of_memory rfl rfl rfl rfl
    refine ⟨Sound.of_free hinv' hinodes hdisk
      fun hin hmust => h.forget hin hmust, ⟨fun {i'} hne => ?_,
        hunload.trans hquiet, ?_⟩, hnone⟩
    · rw [hinodes]
      exact withoutNode_ne hne
    · intro _ _ n hn
      rw [hnone] at hn
      cases hn
  have hi := (h.inv.loaded hnode).1
  unfold ownBlocks at hinv
  by_cases hzero : node.din.indirect = 0
  · rw [if_pos hzero] at hinv
    rw [if_neg (not_not_intro hzero), Call.pure_eq_some] at hrest
    obtain ⟨-, rfl⟩ := hrest
    exact sfsBlockFree_spec hinv (Finset.notMem_empty i) hfree
  · have hdiff : i ≠ node.din.indirect := by
      have hind : (inodeOf fs i).indirect = node.din.indirect := by
        rw [inodeOf_loaded hnode]
      rw [← hind] at hzero ⊢
      exact h.inv.ne_indirect_block hi (Inv.refers_indirect hi hzero)
    rw [if_neg hzero] at hinv
    rw [if_pos hzero] at hrest
    obtain ⟨hinv₁, hinodes₁, hdisk₁, hquiet₁⟩ := sfsBlockFree_spec hinv
      (fun hin => hdiff (Finset.mem_singleton.mp hin)) hfree
    rw [← insert_empty_eq] at hinv₁
    obtain ⟨hinv₂, hinodes₂, hdisk₂, hquiet₂⟩ :=
      sfsBlockFree_spec hinv₁ (Finset.notMem_empty _) hrest
    exact ⟨hinv₂, hinodes₂.trans hinodes₁, hdisk₂.trans hdisk₁,
      hquiet₁.trans hquiet₂⟩

/-- The end of `sfs_reclaim`. -/
theorem reclaimInode_spec {u : Unit} (h : Sound strict files fs)
    (hdisk : strict → OnDisk fs i) (hnode : fs.inodes i = some node)
    (hempty : node.din.nlinks = 0 → node.din.blocks = 0 ∧ sfsBlknRoot ≠ i)
    (hrun : reclaimInode i fs = some (u, fs')) :
    Sound strict (filesWithout files i node.din) fs'
      ∧ Writes strict files i fs fs' ∧ fs'.inodes i = none := by
  unfold reclaimInode at hrun
  rw [Call.bind_eq_some] at hrun
  obtain ⟨n, _, hget, hrun⟩ := hrun
  obtain ⟨hn, hsame⟩ := getSin_run hget
  rw [hnode] at hn
  cases hn
  rw [hsame] at hrun
  -- after the write back the inode is clean
  obtain ⟨fs₁, node₁, hsound₁, hwrites₁, hnode₁, hclean, hdin, hrun⟩ :
      ∃ fs₁ node₁, Sound strict files fs₁ ∧ Writes strict files i fs fs₁
        ∧ fs₁.inodes i = some node₁ ∧ node₁.dirty = false
        ∧ node₁.din = node.din ∧ (do
          sfsRemoveLinks i
          if node.din.nlinks = 0 then
            sfsBlockFree i
            if node.din.indirect ≠ 0 then sfsBlockFree node.din.indirect)
          fs₁ = some (u, fs') := by
    split at hrun
    case isTrue =>
        rw [Call.bind_eq_some] at hrun
        obtain ⟨_, fs₁, hsync, hrun⟩ := hrun
        obtain ⟨hsound₁, hwrites₁, hkept⟩ := sfsFsync_spec h hsync
        obtain ⟨node₁, hnode₁, hclean, hdin⟩ := hkept node hnode
        exact ⟨fs₁, node₁, hsound₁, hwrites₁, hnode₁, hclean, hdin, hrun⟩
    case isFalse hclean =>
        exact ⟨fs, node, h, Writes.refl _ _ _ _, hnode,
          Bool.eq_false_iff.mpr hclean, rfl, hrun⟩
  unfold sfsRemoveLinks at hrun
  rw [Call.bind_eq_some] at hrun
  obtain ⟨_, fs₂, hremove, hrun⟩ := hrun
  rw [Call.modify_eq_some] at hremove
  subst hremove
  unfold filesWithout
  split at hrun
  case isTrue hlinkless =>
      rw [if_pos hlinkless]
      obtain ⟨hblocks, hroot⟩ := hempty hlinkless
      rw [← hdin] at hlinkless hblocks hrun
      have hcovered : CoveredBy fs₁ i node₁.din.blocks :=
        hsound₁.covered_loaded hnode₁ (Or.inr hlinkless)
      rw [hblocks] at hcovered
      rw [Call.bind_eq_some] at hrun
      obtain ⟨_, fs₃, hfree, hrest⟩ := hrun
      obtain ⟨hsound, hwrites, hnone⟩ :=
        hsound₁.remove hnode₁ hcovered hroot hfree hrest
      exact ⟨hsound, hwrites₁.trans hwrites, hnone⟩
  case isFalse hlinked =>
      rw [if_neg hlinked]
      rw [Call.pure_eq_some] at hrun
      obtain ⟨-, rfl⟩ := hrun
      have hsound := hsound₁.unload hnode₁ hclean fun hs =>
        hwrites₁.onDisk hs (hdisk hs)
      refine ⟨hsound, hwrites₁.trans ⟨fun hne => withoutNode_ne hne,
        Quiet.of_memory rfl rfl rfl rfl, ?_⟩, withoutNode_self⟩
      intro _ _ n hn
      have hself : (withoutNode fs₁ i).inodes i = some n := hn
      rw [withoutNode_self] at hself
      cases hself

/-- `vop_truncate` is for regular files, and the root is a directory. -/
theorem vopTruncate_ne_root {r : Except Err Unit} {len : Int}
    (h : Sound strict files fs)
    (hrun : vopTruncate i len fs = some (r, fs')) :
    sfsBlknRoot ≠ i := by
  unfold vopTruncate at hrun
  simp only [Call.bind_eq_some, Call.assert_eq_some] at hrun
  obtain ⟨node, _, hget, _, _, ⟨htype, -⟩, -⟩ := hrun
  obtain ⟨hnode, -⟩ := getSin_run hget
  rintro rfl
  have hdir := h.inv.root_dir
  dsimp only at hdir
  rw [inodeOf_loaded hnode, htype] at hdir
  cases hdir

/-- `sfs_reclaim`: the inode leaves memory, or stays in it. -/
theorem sfsReclaim_spec {r : Except Err Unit} (h : Sound strict files fs)
    (hdisk : strict → OnDisk fs i) (hnode : fs.inodes i = some node)
    (hrun : sfsReclaim i fs = some (r, fs')) :
    Writes strict files i fs fs'
      ∧ (Sound strict (filesWithout files i node.din) fs'
          ∧ fs'.inodes i = none
        ∨ Sound strict files fs' ∧ ∃ node', fs'.inodes i = some node') := by
  unfold sfsReclaim at hrun
  simp only [Call.bind_eq_some, Call.assert_eq_some] at hrun
  obtain ⟨n, _, hget, _, _, ⟨-, rfl⟩, _, fs₁, hset, hrun⟩ := hrun
  obtain ⟨hn, hsame⟩ := getSin_run hget
  rw [hnode] at hn
  cases hn
  obtain rfl := setSin_run hset
  rw [hsame] at hrun
  obtain ⟨h₁, hwrites₁⟩ := h.setCounts hnode (node.reclaimCount - 1)
    node.refCount
  have hdisk₁ := fun hs => hwrites₁.onDisk hs (hdisk hs)
  split at hrun
  case isTrue =>
      rw [Call.pure_eq_some] at hrun
      obtain ⟨-, rfl⟩ := hrun
      exact ⟨hwrites₁, Or.inr ⟨h₁, _, withNode_self⟩⟩
  case isFalse =>
      split at hrun
      case isTrue hlinkless =>
          rw [Call.bind_eq_some] at hrun
          obtain ⟨o, fs₂, htruncate, hrun⟩ := hrun
          obtain ⟨h₂, hframe₂, hblocks⟩ := vopTruncate_spec h₁ htruncate
          have hwrites₂ := hframe₂.writes fun hs hon =>
            vopTruncate_onDisk (h₁.of_strict hs) hon not_torn_zero htruncate
          obtain ⟨node₂, hnode₂, hlinks⟩ := hframe₂.links withNode_self
          cases o with
          | error e =>
              dsimp only at hrun
              rw [Call.pure_eq_some] at hrun
              obtain ⟨-, rfl⟩ := hrun
              exact ⟨hwrites₁.trans hwrites₂, Or.inr ⟨h₂, node₂, hnode₂⟩⟩
          | ok _ =>
              dsimp only at hrun
              simp only [Call.bind_eq_some, Call.pure_eq_some] at hrun
              obtain ⟨_, _, hreclaim, -, rfl⟩ := hrun
              obtain ⟨node', hnode', hzero⟩ := hblocks rfl
              rw [hnode₂] at hnode'
              cases hnode'
              have hlinks' : node₂.din.nlinks = node.din.nlinks := hlinks
              have hdisk₂ := fun hs => hwrites₂.onDisk hs (hdisk₁ hs)
              obtain ⟨hsound, hwrites₃, hnone⟩ := reclaimInode_spec h₂ hdisk₂
                hnode₂ (fun _ => ⟨hzero, vopTruncate_ne_root h₁ htruncate⟩)
                hreclaim
              unfold filesWithout at hsound ⊢
              rw [hlinks'] at hsound
              exact ⟨(hwrites₁.trans hwrites₂).trans hwrites₃,
                Or.inl ⟨hsound, hnone⟩⟩
      case isFalse hlinked =>
          simp only [Call.bind_eq_some, Call.pure_eq_some] at hrun
          obtain ⟨_, _, hreclaim, -, rfl⟩ := hrun
          obtain ⟨hsound, hwrites₂, hnone⟩ := reclaimInode_spec h₁ hdisk₁
            withNode_self (fun hzero => absurd hzero hlinked) hreclaim
          exact ⟨hwrites₁.trans hwrites₂, Or.inl ⟨hsound, hnone⟩⟩

/-- `inode_ref_dec`. -/
theorem inodeRefDec_spec {u : Unit} (h : Sound strict files fs)
    (hdisk : strict → OnDisk fs i)
    (hrun : inodeRefDec i fs = some (u, fs')) :
    Writes strict files i fs fs' ∧ ∃ node, fs.inodes i = some node
      ∧ (Sound strict (filesWithout files i node.din) fs'
          ∧ fs'.inodes i = none
        ∨ Sound strict files fs' ∧ ∃ node', fs'.inodes i = some node') := by
  unfold inodeRefDec at hrun
  simp only [Call.bind_eq_some, Call.assert_eq_some] at hrun
  obtain ⟨node, _, hget, _, _, ⟨-, rfl⟩, _, fs₁, hset, hrun⟩ := hrun
  obtain ⟨hnode, hsame⟩ := getSin_run hget
  obtain rfl := setSin_run hset
  rw [hsame] at hrun
  obtain ⟨h₁, hwrites₁⟩ := h.setCounts hnode node.reclaimCount
    (node.refCount - 1)
  split at hrun
  case isFalse =>
      rw [Call.pure_eq_some] at hrun
      obtain ⟨-, rfl⟩ := hrun
      exact ⟨hwrites₁, node, hnode, Or.inr ⟨h₁, _, withNode_self⟩⟩
  case isTrue =>
      simp only [Call.bind_eq_some, Call.pure_eq_some] at hrun
      obtain ⟨r, _, hreclaim, -, rfl⟩ := hrun
      obtain ⟨hwrites₂, hout⟩ := sfsReclaim_spec h₁
        (fun hs => hwrites₁.onDisk hs (hdisk hs)) withNode_self hreclaim
      exact ⟨hwrites₁.trans hwrites₂, node, hnode, hout⟩

end Ucore.Sfs
