/-
`sfs_lookup` on a directory tree.

Reading an entry changes nothing, so the search of a directory is a search in
the list of its slots; loading the inode found adds one reference to it. A
path of one name is looked up as `resolve` says. A longer one is looked up as
if it were one name, which no entry has.
-/
import Ucore.Sfs.Dir
import Ucore.Sfs.Proofs.Content

namespace Ucore.Sfs

open Call (Returns)

variable {fs fs' : SfsFs} {files held : Finset Nat} {i j b slot index : Nat}
  {node : SfsInode} {strict : Prop} {v v₀ : Volume} {ops : List FileOp}
  {name path : List UInt8}

-- =========================================================== entries

theorem Used.inuse_eq (h : Used fs b) (hmap : MapOk fs) :
    sfsBlockInuse b fs = some (true, fs) := by
  have hinuse := sfsBlockInuse_eq hmap h.range.1 h.range.2
  rwa [h.2.1] at hinuse

theorem assert_eq {p : Prop} [Decidable p] (hp : p) :
    (Call.assert p : SfsM Unit) fs = some ((), fs) :=
  Call.assert_eq_some.2 ⟨hp, rfl⟩

theorem assert_none {p : Prop} [Decidable p] (hp : ¬ p) :
    (Call.assert p : SfsM Unit) fs = none := by
  unfold Call.assert
  rw [if_neg hp]
  rfl

theorem Used.rbuf_eq {len offset : Nat} (h : Used fs b)
    (hoffset : offset < sfsBlksize) (hlen : offset + len ≤ sfsBlksize) :
    sfsRbuf len b offset fs = some (fun k => fs.disk b (offset + k), fs) := by
  unfold sfsRbuf
  rw [Call.bind_of_eq _ (assert_eq ⟨hoffset, hlen⟩)]
  rw [Call.bind_of_eq _ (rwCheck_eq h.range.1 h.range.2)]
  rfl

theorem bmapGetOut_eq {ino : Nat} (h : Used fs ino) (hmap : MapOk fs) :
    bmapGetOut ino fs = some (.ok ino, fs) := by
  unfold bmapGetOut
  rw [if_pos h.range.1, Call.bind_of_eq _ (h.inuse_eq hmap)]
  rw [Call.bind_of_eq _ (assert_eq rfl)]
  rfl

/-- A block of a file is in use. -/
theorem Inv.used_blockAt (h : Inv held ⟨fs, files⟩) (hi : i ∈ files)
    (hne : blockAt fs i index ≠ 0) : Used fs (blockAt fs i index) :=
  (h.data hi hi hne).1

/-- The block at an index that has one. -/
theorem sfsBmapGetNolock_found (h : Inv held ⟨fs, files⟩)
    (hnode : fs.inodes i = some node) (hne : blockAt fs i index ≠ 0) :
    sfsBmapGetNolock i index false fs
      = some (.ok (blockAt fs i index), fs) := by
  have hused := h.used_blockAt (h.loaded hnode).1 hne
  have hdin := inodeOf_loaded hnode
  unfold sfsBmapGetNolock
  rw [Call.bind_of_eq _ (getSin_eq hnode)]
  dsimp only
  split
  case isTrue hlt =>
      rw [if_neg (by simp)]
      rw [blockAt_direct hlt, hdin] at hused ⊢
      exact bmapGetOut_eq hused h.map
  case isFalse hge =>
      have hge' := Nat.not_lt.1 hge
      have hlt : index - sfsNdirect < sfsBlkNentry := by
        by_contra hpast
        apply hne
        apply blockAt_past
        unfold maxBlocks
        omega
      rw [if_pos hlt]
      rw [blockAt_entry hge' hlt, target_entry, hdin] at hne hused ⊢
      have hind : node.din.indirect ≠ 0 := by
        intro hzero
        rw [if_pos hzero] at hne
        exact hne rfl
      rw [if_neg hind] at hne hused ⊢
      have hsub : sfsBmapGetSubNolock node.din.indirect (index - sfsNdirect)
          false fs = some (.ok (node.din.indirect, entryAt fs.disk
            node.din.indirect (index - sfsNdirect)), fs) := by
        obtain ⟨hoffset, hlen⟩ := entry_range hlt
        have hread := (h.used_indirect hnode hind).rbuf_eq hoffset hlen
        unfold sfsBmapGetSubNolock
        rw [Call.bind_of_eq _ (assert_eq hlt)]
        dsimp only
        rw [if_pos hind, Call.bind_of_eq _ hread, if_pos (Or.inr rfl)]
        rw [(sfsRbuf_entry hread).2]
        rfl
      rw [Call.bind_of_eq _ hsub]
      dsimp only
      rw [if_neg (not_not_intro rfl)]
      exact bmapGetOut_eq hused h.map

theorem sfsDirentReadEntry_eq (h : Inv held ⟨fs, files⟩)
    (hnode : fs.inodes i = some node) (hdir : node.din.type = sfsTypeDir)
    (hlt : slot < node.din.blocks) (hne : blockAt fs i slot ≠ 0) :
    sfsDirentReadEntry i slot fs = some (.ok (entryOf fs i slot), fs) := by
  have hused := h.used_blockAt (h.loaded hnode).1 hne
  have hload : sfsBmapLoadNolock i slot fs
      = some (.ok (blockAt fs i slot), fs) := by
    unfold sfsBmapLoadNolock
    rw [Call.bind_of_eq _ (getSin_eq hnode)]
    rw [Call.bind_of_eq _ (assert_eq (Nat.le_of_lt hlt))]
    dsimp only
    rw [decide_eq_false (Nat.ne_of_lt hlt)]
    rw [Call.bind_of_eq _ (sfsBmapGetNolock_found h hnode hne)]
    dsimp only
    rw [Call.bind_of_eq _ (hused.inuse_eq h.map)]
    rw [Call.bind_of_eq _ (assert_eq rfl)]
    rfl
  have hread : sfsRbuf sizeofDiskEntry (blockAt fs i slot) 0 fs = _ :=
    hused.rbuf_eq (by decide) (by decide)
  unfold sfsDirentReadEntry
  rw [Call.bind_of_eq _ (getSin_eq hnode)]
  rw [Call.bind_of_eq _ (assert_eq ⟨hdir, hlt⟩)]
  rw [Call.bind_of_eq _ hload]
  dsimp only
  rw [Call.bind_of_eq _ (hused.inuse_eq h.map)]
  rw [Call.bind_of_eq _ (assert_eq rfl), Call.bind_of_eq _ hread]
  simp only [Nat.zero_add]
  rfl

/-- The entry that `sfs_dirent_read_nolock` reads is all that it leaves. -/
theorem sfsDirentReadNolock_eq : sfsDirentReadNolock i slot fs
    = (sfsDirentReadEntry i slot fs).map fun r =>
      (r.1.map fun _ => (), r.2) := by
  unfold sfsDirentReadNolock sfsDirentReadEntry
  apply Call.bind_map
  intro node fs₁
  apply Call.bind_map
  intro _ fs₂
  apply Call.bind_map
  intro r fs₃
  cases r with
  | error e => rfl
  | ok ino =>
      apply Call.bind_map
      intro inuse fs₄
      apply Call.bind_map
      intro _ fs₅
      apply Call.bind_map
      exact fun _ _ => rfl

-- ========================================================= searching

/-- What a search gives for the slot it found. -/
def searchResult (fs : SfsFs) (i : Nat) : Option Nat → Except Err (Nat × Nat)
  | none => .error .noEnt
  | some slot => .ok ((entryOf fs i slot).ino, slot)

/-- The loop finds the first slot that holds the name. -/
theorem direntSearchLoop_eq (h : Inv held ⟨fs, files⟩)
    (hnode : fs.inodes i = some node) (hdir : node.din.type = sfsTypeDir)
    (hslots : ∀ slot < node.din.blocks, blockAt fs i slot ≠ 0) :
    ∀ n k, k + n ≤ node.din.blocks → direntSearchLoop i name n k fs
      = some (searchResult fs i
        ((List.range' k n).find? (holds fs i name)), fs) := by
  intro n
  induction n with
  | zero => exact fun _ _ => rfl
  | succ n ih =>
      intro k hle
      have hread := sfsDirentReadEntry_eq h hnode hdir
        (show k < node.din.blocks by omega) (hslots k (by omega))
      rw [direntSearchLoop, Call.bind_of_eq _ hread]
      dsimp only
      rw [List.range'_succ, List.find?_cons]
      by_cases hholds : (entryOf fs i k).ino ≠ 0
          ∧ name = (entryOf fs i k).name
      · rw [if_pos hholds, show holds fs i name k = true from
          decide_eq_true hholds]
        rfl
      · rw [if_neg hholds, show holds fs i name k = false from
          decide_eq_false hholds]
        exact ih (k + 1) (by omega)

theorem sfsDirentSearchNolock_eq (h : Inv held ⟨fs, files⟩)
    (hnode : fs.inodes i = some node) (hdir : node.din.type = sfsTypeDir)
    (hslots : ∀ slot < node.din.blocks, blockAt fs i slot ≠ 0)
    (hlen : name.length ≤ sfsMaxFnameLen) : sfsDirentSearchNolock i name fs
      = some (searchResult fs i
        ((List.range node.din.blocks).find? (holds fs i name)), fs) := by
  unfold sfsDirentSearchNolock
  rw [Call.bind_of_eq _ (assert_eq hlen), Call.bind_of_eq _ (getSin_eq hnode)]
  rw [List.range_eq_range']
  exact direntSearchLoop_eq h hnode hdir hslots _ 0 (by omega)

/-- A name that is too long trips the assertion. -/
theorem sfsLookupOnce_long (hlen : sfsMaxFnameLen < name.length) :
    sfsLookupOnce i name fs = none := by
  unfold sfsLookupOnce
  apply Call.bind_of_none
  unfold sfsDirentSearchNolock
  exact Call.bind_of_none _ (assert_none (Nat.not_le.2 hlen))

-- ======================================================== references

theorem refCount_loaded (hnode : fs.inodes i = some node) :
    refCount fs i = node.refCount := by
  rw [refCount, hnode]

theorem refCount_withNode {node' : SfsInode} (k : Nat) :
    refCount (withNode fs i node') k
      = if k = i then node'.refCount else refCount fs k := by
  by_cases hk : k = i
  · rw [if_pos hk, hk]
    exact refCount_loaded withNode_self
  · rw [if_neg hk]
    unfold refCount
    rw [withNode_ne hk]

theorem setSin_eq : setSin i node fs = some ((), withNode fs i node) := rfl

theorem withNode_withNode {node' : SfsInode} :
    withNode (withNode fs i node) i node' = withNode fs i node' := by
  unfold withNode
  rw [Function.update_idem]

theorem withNode_eq (hnode : fs.inodes i = some node) :
    withNode fs i node = fs := by
  unfold withNode
  rw [← hnode, Function.update_eq_self]

theorem inodeRefInc_eq (hnode : fs.inodes i = some node) :
    inodeRefInc i fs = some (node.refCount + 1,
      withNode fs i { node with refCount := node.refCount + 1 }) := by
  unfold inodeRefInc
  rw [Call.bind_of_eq _ (getSin_eq hnode), Call.bind_of_eq _ setSin_eq]
  rfl

/-- A store that adds a reference. -/
theorem Referenced.of_store {node' : SfsInode}
    (hdin : node'.din = inodeOf fs j)
    (hrefs : node'.refCount = refCount fs j + 1) :
    Referenced fs (withNode fs j node') j := by
  refine ⟨fun k => ?_, fun k => ?_, rfl, rfl, rfl⟩
  · rw [refCount_withNode]
    by_cases hk : k = j
    · rw [if_pos hk, if_pos hk, hk, hrefs]
    · rw [if_neg hk, if_neg hk, Int.add_zero]
  · rw [inodeOf_withNode]
    split
    case isTrue heq => rw [hdin, heq]
    case isFalse => rfl

/-- An inode of the volume is loaded, and gets one reference. -/
theorem sfsLoadInode_referenced (h : Inv held ⟨fs, files⟩) (hj : j ∈ files)
    (hlinks : (inodeOf fs j).nlinks ≠ 0)
    (htype : (inodeOf fs j).type = sfsTypeDir
      ∨ (inodeOf fs j).type = sfsTypeFile) :
    ∃ fs', sfsLoadInode j fs = some ((), fs') ∧ Referenced fs fs' j := by
  cases hnode : fs.inodes j with
  | some node =>
      have hdin := inodeOf_loaded hnode
      have hcount := refCount_loaded hnode
      obtain ⟨fs', hlookup, hrefs⟩ : ∃ fs', lookupSfsNolock j fs
          = some (true, fs') ∧ Referenced fs fs' j := by
        have hget : (Call.get : SfsM SfsFs) fs = some (fs, fs) := rfl
        unfold lookupSfsNolock
        rw [Call.bind_of_eq _ hget, hnode]
        dsimp only
        rw [Call.bind_of_eq _ (inodeRefInc_eq hnode)]
        split
        case isTrue =>
            rw [Call.bind_of_eq _ (getSin_eq withNode_self)]
            rw [Call.bind_of_eq _ setSin_eq, withNode_withNode]
            refine ⟨_, rfl, Referenced.of_store hdin.symm ?_⟩
            rw [hcount]
        case isFalse =>
            refine ⟨_, rfl, Referenced.of_store hdin.symm ?_⟩
            rw [hcount]
      refine ⟨fs', ?_, hrefs⟩
      unfold sfsLoadInode
      rw [Call.bind_of_eq _ hlookup, if_pos rfl]
      rfl
  | none =>
      have hself : target fs j .self ≠ 0 := h.files_pos hj
      have hused : Used fs j := h.used_target hj hself
      have hdin := inodeOf_unloaded hnode
      have hlookup : lookupSfsNolock j fs = some (false, fs) := by
        have hget : (Call.get : SfsM SfsFs) fs = some (fs, fs) := rfl
        unfold lookupSfsNolock
        rw [Call.bind_of_eq _ hget, hnode]
        rfl
      have hread : sfsRbuf sizeofDiskInode j 0 fs = _ :=
        hused.rbuf_eq (by decide) (by decide)
      simp only [Nat.zero_add] at hread
      rw [hdin] at hlinks htype
      unfold sfsLoadInode
      rw [Call.bind_of_eq _ hlookup, if_neg (fun h => by cases h)]
      rw [Call.bind_of_eq _ (hused.inuse_eq h.map)]
      rw [Call.bind_of_eq _ (assert_eq rfl), Call.bind_of_eq _ hread]
      rw [Call.bind_of_eq _ (assert_eq hlinks)]
      unfold sfsCreateInode
      rw [Call.bind_of_eq _ (assert_eq htype)]
      refine ⟨_, setSin_eq, Referenced.of_store hdin.symm ?_⟩
      rw [refCount, hnode]
      rfl

-- ============================================================ lookup

theorem resolve_name (hdir : (inodeOf fs i).type = sfsTypeDir) :
    resolve fs i [name] = match lookupName fs i name with
      | none => .error .noEnt
      | some j => .ok j := by
  rw [resolve, if_neg (not_not_intro hdir)]
  rfl

/-- A name that a directory has is that of an entry. -/
theorem lookupName_some (h : lookupName fs i name = some j) :
    ∃ slot < (inodeOf fs i).blocks, (entryOf fs i slot).ino = j
      ∧ j ≠ 0 ∧ (entryOf fs i slot).name = name := by
  unfold lookupName at h
  obtain ⟨slot, hfind, rfl⟩ := Option.map_eq_some_iff.1 h
  have hholds : holds fs i name slot = true := List.find?_some hfind
  obtain ⟨hne, heq⟩ := of_decide_eq_true hholds
  have hmem := List.mem_of_find?_eq_some hfind
  exact ⟨slot, List.mem_range.1 hmem, rfl, hne, heq.symm⟩

theorem sfsLookupOnce_eq (h : Sound strict files fs)
    (htree : Tree ⟨fs, files⟩) (hnode : fs.inodes i = some node)
    (hdir : node.din.type = sfsTypeDir)
    (hlen : name.length ≤ sfsMaxFnameLen) :
    ∃ fs', sfsLookupOnce i name fs = some (resolve fs i [name], fs')
      ∧ LeavesRefs fs fs' (resolve fs i [name]) := by
  have hi := (h.inv.loaded hnode).1
  have hdin := inodeOf_loaded hnode
  have hdir' : (inodeOf fs i).type = sfsTypeDir := by
    rw [hdin]
    exact hdir
  have hslots := htree.slots i hi hdir'
  dsimp only at hslots
  rw [hdin] at hslots
  have hsearch :=
    sfsDirentSearchNolock_eq h.inv hnode hdir hslots hlen
  unfold sfsLookupOnce
  rw [Call.bind_of_eq _ hsearch, resolve_name hdir', ← hdin]
  cases hname : lookupName fs i name with
  | none =>
      have hfind := Option.map_eq_none_iff.1 hname
      rw [hfind]
      exact ⟨fs, rfl, rfl⟩
  | some j =>
      obtain ⟨slot, hfind, hino⟩ := Option.map_eq_some_iff.1 hname
      obtain ⟨slot', hlt, hj, hne, -⟩ := lookupName_some hname
      have hentry := htree.entries i hi hdir' slot' hlt (hj ▸ hne)
      dsimp only at hentry
      rw [hj] at hentry
      obtain ⟨fs', hload, hrefs⟩ := sfsLoadInode_referenced h.inv hentry.1
        (htree.linked j hentry.1) (htree.type j hentry.1)
      rw [hfind]
      dsimp only [searchResult]
      rw [hino, Call.bind_of_eq _ hload]
      exact ⟨fs', rfl, hrefs⟩

/-- What is looked up depends on the inodes and the disk. -/
theorem entryOf_congr (hinode : ∀ k, inodeOf fs' k = inodeOf fs k)
    (hdisk : fs'.disk = fs.disk) : entryOf fs' i slot = entryOf fs i slot := by
  have hblock : blockAt fs' i slot = blockAt fs i slot := by
    apply blockAt_congr
    intro pos _
    apply target_congr (SameMap.of_eq (hinode i))
    intro _ k
    rw [hdisk]
  unfold entryOf
  rw [hblock, hdisk]

theorem lookupName_congr (hinode : ∀ k, inodeOf fs' k = inodeOf fs k)
    (hdisk : fs'.disk = fs.disk) :
    lookupName fs' i name = lookupName fs i name := by
  unfold lookupName holds
  simp only [entryOf_congr hinode hdisk, hinode]

theorem resolve_congr (hinode : ∀ k, inodeOf fs' k = inodeOf fs k)
    (hdisk : fs'.disk = fs.disk) (names : List (List UInt8)) :
    ∀ i, resolve fs' i names = resolve fs i names := by
  induction names with
  | nil => exact fun _ => rfl
  | cons name names ih =>
      intro i
      unfold resolve
      rw [hinode, lookupName_congr hinode hdisk]
      split
      case isTrue => rfl
      case isFalse =>
          cases lookupName fs i name with
          | none => rfl
          | some j => exact ih j

theorem Tree.congr (h : Tree ⟨fs, files⟩)
    (hinode : ∀ k, inodeOf fs' k = inodeOf fs k)
    (hdisk : fs'.disk = fs.disk) : Tree ⟨fs', files⟩ := by
  have hblock : ∀ i slot, blockAt fs' i slot = blockAt fs i slot := by
    intro i slot
    apply blockAt_congr
    intro pos _
    apply target_congr (SameMap.of_eq (hinode i))
    intro _ k
    rw [hdisk]
  constructor
  case slots =>
    dsimp only
    simp only [hinode, hblock]
    exact h.slots
  case entries =>
    dsimp only
    simp only [hinode, entryOf_congr hinode hdisk]
    exact h.entries
  case linked =>
    dsimp only
    simp only [hinode]
    exact h.linked
  case type =>
    dsimp only
    simp only [hinode]
    exact h.type

/-- One reference more and one less. -/
theorem Referenced.drop {fs₁ fs₂ : SfsFs} {node₂ : SfsInode}
    (hinc : Referenced fs fs₁ i) (hlookup : Referenced fs₁ fs₂ j)
    (hnode₂ : fs₂.inodes i = some node₂) : Referenced fs
      (withNode fs₂ i { node₂ with refCount := node₂.refCount - 1 }) j := by
  refine ⟨fun k => ?_, fun k => ?_, ?_, ?_, ?_⟩
  · rw [refCount_withNode]
    have hrefs := hlookup.refs k
    have hrefs' := hinc.refs k
    by_cases hk : k = i
    · rw [if_pos hk]
      rw [if_pos hk] at hrefs'
      rw [hk] at hrefs hrefs' ⊢
      have hcount := refCount_loaded hnode₂
      show node₂.refCount - 1 = _
      omega
    · rw [if_neg hk]
      rw [if_neg hk] at hrefs'
      rw [hrefs, hrefs', Int.add_zero]
  · have hdin : (SfsInode.din { node₂ with refCount := node₂.refCount - 1 })
        = node₂.din := rfl
    rw [inodeOf_withNode_same hnode₂ hdin, hlookup.inode, hinc.inode]
  · exact hlookup.disk.trans hinc.disk
  · exact hlookup.freemap.trans hinc.freemap
  · exact hlookup.super.trans hinc.super

/-- Dropping a reference that is not the last. -/
theorem inodeRefDec_eq (hnode : fs.inodes i = some node)
    (hrefs : 1 < node.refCount) : inodeRefDec i fs = some ((),
      withNode fs i { node with refCount := node.refCount - 1 }) := by
  have hpos : 0 < node.refCount := by omega
  have hne : ¬ node.refCount - 1 = 0 := by omega
  unfold inodeRefDec
  rw [Call.bind_of_eq _ (getSin_eq hnode), Call.bind_of_eq _ (assert_eq hpos)]
  rw [Call.bind_of_eq _ setSin_eq, if_neg hne]
  rfl

/-- A name is looked up as it is to be, and only the inode handed back is
left with a reference more. -/
theorem sfsLookup_name (h : Sound strict files fs) (htree : Tree ⟨fs, files⟩)
    (hnode : fs.inodes i = some node) (hrefs : 0 < node.refCount)
    (hpath : path ≠ [] ∧ path.head? ≠ some slash)
    (hlen : node.din.type = sfsTypeDir → path.length ≤ sfsMaxFnameLen) :
    ∃ fs', sfsLookup i path fs = some (resolve fs i [path], fs')
      ∧ LeavesRefs fs fs' (resolve fs i [path]) := by
  have hdin := inodeOf_loaded hnode
  have hcount := refCount_loaded hnode
  have hinc := inodeRefInc_eq hnode
  let node₁ : SfsInode := { node with refCount := node.refCount + 1 }
  let fs₁ := withNode fs i node₁
  have hsame : Referenced fs fs₁ i :=
    Referenced.of_store hdin.symm (by rw [hcount])
  have hnode₁ : fs₁.inodes i = some node₁ := withNode_self
  have hback : withNode fs₁ i
      { node₁ with refCount := node₁.refCount - 1 } = fs := by
    have hnode' : ({ node₁ with refCount := node₁.refCount - 1 } : SfsInode)
        = node := by
      show ({ node with refCount := node.refCount + 1 - 1 } : SfsInode) = node
      rw [Int.add_sub_cancel]
    rw [hnode', withNode_withNode, withNode_eq hnode]
  have hmore : 1 < node₁.refCount := by
    show 1 < node.refCount + 1
    omega
  unfold sfsLookup
  rw [Call.bind_of_eq _ (assert_eq hpath), Call.bind_of_eq _ hinc]
  rw [Call.bind_of_eq _ (getSin_eq hnode₁)]
  split
  case isTrue hfile =>
      have hfile' : (inodeOf fs i).type ≠ sfsTypeDir := by
        rw [hdin]
        exact hfile
      rw [Call.bind_of_eq _ (inodeRefDec_eq hnode₁ hmore), hback]
      rw [resolve, if_pos hfile']
      exact ⟨fs, rfl, rfl⟩
  case isFalse hdir =>
      rw [not_not] at hdir
      obtain ⟨h₁, -⟩ := inodeRefInc_spec h hinc
      have htree₁ : Tree ⟨fs₁, files⟩ := htree.congr hsame.inode hsame.disk
      obtain ⟨fs₂, honce, hleaves⟩ :=
        sfsLookupOnce_eq h₁ htree₁ hnode₁ hdir (hlen hdir)
      rw [resolve_congr hsame.inode hsame.disk] at honce hleaves
      rw [Call.bind_of_eq _ honce]
      cases hres : resolve fs i [path] with
      | error e =>
          rw [hres] at hleaves
          have heq : fs₂ = fs₁ := hleaves
          rw [heq, Call.bind_of_eq _ (inodeRefDec_eq hnode₁ hmore), hback]
          exact ⟨fs, rfl, rfl⟩
      | ok j =>
          rw [hres] at hleaves
          have hlookup : Referenced fs₁ fs₂ j := hleaves
          have hmany : 1 < refCount fs₂ i := by
            have hrefs₂ := hlookup.refs i
            rw [refCount_loaded hnode₁] at hrefs₂
            split at hrefs₂
            case isTrue => omega
            case isFalse => omega
          obtain ⟨node₂, hnode₂⟩ : ∃ node₂, fs₂.inodes i = some node₂ := by
            apply Option.ne_none_iff_exists'.1
            intro hnone
            rw [refCount, hnone] at hmany
            exact absurd hmany (by decide)
          have hmore₂ : 1 < node₂.refCount := refCount_loaded hnode₂ ▸ hmany
          rw [Call.bind_of_eq _ (inodeRefDec_eq hnode₂ hmore₂)]
          exact ⟨_, rfl, hsame.drop hlookup hnode₂⟩

-- ============================================================= paths

/-- A path that starts with a name has one. -/
theorem components_ne_nil (hpath : path ≠ [] ∧ path.head? ≠ some slash) :
    components path ≠ [] := by
  obtain ⟨hne, hhead⟩ := hpath
  cases path with
  | nil => exact absurd rfl hne
  | cons c cs =>
      have hc : (c == slash) = false := by
        rw [beq_eq_false_iff_ne]
        exact fun heq => hhead (congrArg some heq)
      have hsplit : (c :: cs).splitOn slash
          = (cs.splitOn slash).modifyHead (List.cons c) := by
        unfold List.splitOn
        rw [List.splitOnP_cons_eq_if_modifyHead, hc, if_neg (fun h => by cases h)]
      unfold components
      rw [hsplit]
      cases hrest : cs.splitOn slash with
      | nil => exact absurd hrest (List.splitOnP_ne_nil _ cs)
      | cons name names => simp

/-- A path without slashes is one name. -/
theorem components_name (hne : path ≠ []) (hslash : slash ∉ path) :
    components path = [path] := by
  have hsplit : path.splitOn slash = [path] := by
    apply List.splitOnP_eq_singleton
    intro c hc
    rw [beq_eq_false_iff_ne]
    exact fun heq => hslash (heq ▸ hc)
  unfold components
  rw [hsplit]
  simpa using hne

/-- No entry has a name with a slash. -/
theorem resolve_slash (htree : Tree ⟨fs, files⟩) (hi : i ∈ files)
    (hdir : (inodeOf fs i).type = sfsTypeDir) (hslash : slash ∈ name) :
    resolve fs i [name] = .error .noEnt := by
  rw [resolve_name hdir]
  cases hname : lookupName fs i name with
  | none => rfl
  | some j =>
      exfalso
      obtain ⟨slot, hlt, hj, hne, heq⟩ := lookupName_some hname
      have hentry := htree.entries i hi hdir slot hlt (hj ▸ hne)
      rw [heq] at hentry
      exact hentry.2.2 hslash

/-- In every state that a run reaches, if the directories are a tree:
`sfs_lookup` hands back what the names of its path lead to, and leaves the
references it is to leave, just where it is called on no directory, or the
path fits an entry and is one name or leads to no entry. -/
theorem sfsLookup_path (himage : Consistent v₀) (hrun : Run FileStep v₀ ops v)
    (htree : Tree v) (hnode : v.fs.inodes i = some node)
    (hrefs : 0 < node.refCount)
    (hpath : path ≠ [] ∧ path.head? ≠ some slash) :
    (∃ fs', sfsLookup i path v.fs
        = some (resolve v.fs i (components path), fs')
      ∧ LeavesRefs v.fs fs' (resolve v.fs i (components path)))
    ↔ node.din.type ≠ sfsTypeDir ∨ path.length ≤ sfsMaxFnameLen
      ∧ (slash ∉ path
        ∨ resolve v.fs i (components path) = .error .noEnt) := by
  have h := (himage.sound False).fileRun hrun
  have hi := (h.inv.loaded hnode).1
  have hdin := inodeOf_loaded hnode
  by_cases hdir : node.din.type = sfsTypeDir
  · have hdir' : (inodeOf v.fs i).type = sfsTypeDir := by
      rw [hdin]
      exact hdir
    by_cases hlen : path.length ≤ sfsMaxFnameLen
    · have hlookup := sfsLookup_name h htree hnode hrefs hpath fun _ => hlen
      by_cases hslash : slash ∈ path
      · have hnone := resolve_slash htree hi hdir' hslash
        rw [hnone] at hlookup
        constructor
        · intro hfound
          obtain ⟨fs', hret, -⟩ := hfound
          obtain ⟨fs₁, hret₁, -⟩ := hlookup
          rw [hret₁] at hret
          have hsame := congrArg Prod.fst (Option.some.inj hret)
          exact Or.inr ⟨hlen, Or.inr hsame.symm⟩
        · intro hcond
          rcases hcond with hfile | ⟨-, hno | hres⟩
          · exact absurd hdir hfile
          · exact absurd hslash hno
          · rw [hres]
            exact hlookup
      · rw [components_name hpath.1 hslash]
        exact ⟨fun _ => Or.inr ⟨hlen, Or.inl hslash⟩, fun _ => hlookup⟩
    · have hpanic : sfsLookup i path v.fs = none := by
        have hinc := inodeRefInc_eq hnode
        unfold sfsLookup
        rw [Call.bind_of_eq _ (assert_eq hpath), Call.bind_of_eq _ hinc]
        rw [Call.bind_of_eq _ (getSin_eq withNode_self)]
        rw [if_neg (not_not_intro hdir)]
        exact Call.bind_of_none _ (sfsLookupOnce_long (Nat.not_le.1 hlen))
      rw [hpanic]
      constructor
      · intro hfound
        obtain ⟨fs', hret, -⟩ := hfound
        cases hret
      · intro hcond
        rcases hcond with hfile | ⟨hle, -⟩
        · exact absurd hdir hfile
        · exact absurd hle hlen
  · have hfile' : (inodeOf v.fs i).type ≠ sfsTypeDir := by
      rw [hdin]
      exact hdir
    have hlookup := sfsLookup_name h htree hnode hrefs hpath
      fun heq => absurd heq hdir
    have hsame : resolve v.fs i (components path)
        = resolve v.fs i [path] := by
      cases hnames : components path with
      | nil => exact absurd hnames (components_ne_nil hpath)
      | cons name names =>
          rw [resolve, resolve, if_pos hfile', if_pos hfile']
    rw [hsame]
    exact ⟨fun _ => Or.inl hdir, fun _ => hlookup⟩

-- ========================================================== an image

/-- The entry or data block of an inode of the volume below. -/
def treeBlock (i : Nat) : Nat := if i = 1 then 4 else if i = 3 then 6 else 7

/-- Inode 5 is a file, the others are directories. -/
def treeInode (i : Nat) : DiskInode where
  size := if i = 5 then 100 else 4096
  type := if i = 5 then sfsTypeFile else sfsTypeDir
  nlinks := 1
  blocks := 1
  direct k := if k.val = 0 then treeBlock i else 0
  indirect := 0

/-- A directory entry with a name of one byte. -/
def treeEntry (ino : Nat) (c : UInt8) (k : Nat) : UInt8 :=
  if k < 4 then wordByte ino k else if k = 4 then c else 0

/-- The free map of a volume of sixteen blocks, half of them free. -/
def treeFreemap : Bitmap where
  nbits := 32768
  nwords := 1024
  map ix := if ix = 0 then 0xFF00#32 else 0#32

/-- The root has a directory `d`, inode 3, and that a file `f`, inode 5. -/
def treeDisk (k : Nat) : Nat → UInt8 :=
  if k = 1 ∨ k = 3 ∨ k = 5 then (treeInode k).toBytes
  else if k = 4 then treeEntry 3 0x64
  else if k = 6 then treeEntry 5 0x66
  else if k = 7 then fun _ => 0xFF
  else fun _ => 0

/-- The volume, with one reference to the directory. -/
def treeFs : SfsFs where
  super := { blocks := 16, unusedBlocks := 8 }
  freemap := treeFreemap
  superDirty := false
  disk := treeDisk
  inodes i := if i = 3 then
    some { din := treeInode 3, dirty := false, reclaimCount := 1, refCount := 1 }
    else none

def treeVolume : Volume := ⟨treeFs, {1, 3, 5}⟩

theorem treeVolume_files : i ∈ treeVolume.files ↔ i = 1 ∨ i = 3 ∨ i = 5 := by
  simp [treeVolume]

theorem treeInode_fits (i : Nat) : (treeInode i).Fits := by
  have hblock : treeBlock i < 256 ^ 4 := by
    unfold treeBlock
    split
    · decide
    · split <;> decide
  constructor
  case size => unfold treeInode; dsimp only; split <;> decide
  case type => unfold treeInode; dsimp only; split <;> decide
  case nlinks => exact (by decide : 1 < 256 ^ 2)
  case blocks => exact (by decide : 1 < 256 ^ 4)
  case direct =>
    intro k
    unfold treeInode
    dsimp only
    split
    · exact hblock
    · decide
  case indirect => exact (by decide : 0 < 256 ^ 4)

theorem treeFs_inode (hi : i ∈ treeVolume.files) :
    inodeOf treeFs i = treeInode i := by
  have hread := DiskInode.ofBytes_toBytes (treeInode_fits i)
  rw [treeVolume_files] at hi
  rcases hi with rfl | rfl | rfl
  · exact hread
  · rfl
  · exact hread

theorem treeFs_bit : treeFreemap.bit b = true ↔ 8 ≤ b ∧ b < 16 := by
  have hword : ∀ k < 32, (0xFF00#32).getLsbD k = true
      ↔ 8 ≤ k ∧ k < 16 := by decide
  show (if b / 32 = 0 then 0xFF00#32 else 0#32).getLsbD (b % 32) = true ↔ _
  by_cases hb : b < 32
  · rw [if_pos (Nat.div_eq_of_lt hb), Nat.mod_eq_of_lt hb]
    exact hword b hb
  · rw [if_neg (by omega), BitVec.getLsbD_zero]
    simp only [Bool.false_eq_true, false_iff]
    omega

theorem treeFs_freeBits : freeBits treeFs = Finset.Ico 8 16 := by
  have hbits : sfsFreemapBits treeFs.super = 32768 := by decide
  ext b
  rw [mem_freeBits, show treeFs.freemap = treeFreemap from rfl, treeFs_bit,
    hbits, Finset.mem_Ico]
  omega

/-- Where a block of the volume is referred to. -/
def treeOwner (b : Nat) : Nat × Pos :=
  if b = 4 then (1, .direct ⟨0, by decide⟩)
  else if b = 6 then (3, .direct ⟨0, by decide⟩)
  else if b = 7 then (5, .direct ⟨0, by decide⟩)
  else (b, .self)

theorem treeFs_refers {x : Nat × Pos} : Refers treeVolume x b
    ↔ (b = 1 ∨ 3 ≤ b ∧ b < 8) ∧ x = treeOwner b := by
  constructor
  · intro h
    obtain ⟨i, pos⟩ := x
    obtain ⟨hin, ht, hb⟩ := h
    dsimp only at hin ht
    have hinode := treeFs_inode hin
    have hfiles := treeVolume_files.1 hin
    cases pos with
    | self =>
        have heq : i = b := ht
        subst heq
        rcases hfiles with rfl | rfl | rfl
        · exact ⟨by omega, rfl⟩
        · exact ⟨by omega, rfl⟩
        · exact ⟨by omega, rfl⟩
    | direct k =>
        have heq : (inodeOf treeFs i).direct k = b := ht
        rw [hinode] at heq
        have hdirect : (if k.val = 0 then treeBlock i else 0) = b := heq
        split at hdirect
        case isFalse => exact absurd hdirect.symm hb
        case isTrue hk =>
            subst hdirect
            have hfirst : k = ⟨0, by decide⟩ := Fin.ext hk
            subst hfirst
            rcases hfiles with rfl | rfl | rfl
            · exact ⟨by decide, rfl⟩
            · exact ⟨by decide, rfl⟩
            · exact ⟨by decide, rfl⟩
    | indirect =>
        have heq : (inodeOf treeFs i).indirect = b := ht
        rw [hinode] at heq
        exact absurd heq.symm hb
    | entry j =>
        have heq : target treeFs i (.entry j) = b := ht
        rw [target_entry, hinode, if_pos (by rfl)] at heq
        exact absurd heq.symm hb
  · intro h
    obtain ⟨hb, rfl⟩ := h
    have hplace : b = 1 ∨ b = 3 ∨ b = 4 ∨ b = 5 ∨ b = 6 ∨ b = 7 := by omega
    have hdirect : ∀ i (hi : i ∈ treeVolume.files),
        target treeFs i (.direct ⟨0, by decide⟩) = treeBlock i := by
      intro i hi
      show (inodeOf treeFs i).direct _ = _
      rw [treeFs_inode hi]
      rfl
    rcases hplace with rfl | rfl | rfl | rfl | rfl | rfl
    · exact ⟨by decide, rfl, by decide⟩
    · exact ⟨by decide, rfl, by decide⟩
    · exact ⟨by decide, hdirect 1 (by decide), by decide⟩
    · exact ⟨by decide, rfl, by decide⟩
    · exact ⟨by decide, hdirect 3 (by decide), by decide⟩
    · exact ⟨by decide, hdirect 5 (by decide), by decide⟩

theorem treeFs_reserved : reservedBlocks treeFs.super = 3 := by decide

theorem treeVolume_consistent : Consistent treeVolume := by
  have hblocks : treeFs.super.blocks = 16 := rfl
  constructor
  case nbits => decide
  case nwords => decide
  case blocks_lt => decide
  case free_range =>
    intro b hb
    show reservedBlocks treeFs.super ≤ b ∧ b < treeFs.super.blocks
    have hmem : b ∈ freeBits treeFs := hb
    rw [treeFs_freeBits, Finset.mem_Ico] at hmem
    rw [treeFs_reserved, hblocks]
    omega
  case unused_eq =>
    show treeFs.super.unusedBlocks = (freeBits treeFs).card
    rw [treeFs_freeBits]
    rfl
  case used_iff =>
    intro b hlo hlt
    have hlo' : reservedBlocks treeFs.super ≤ b := hlo
    have hlt' : b < treeFs.super.blocks := hlt
    rw [treeFs_reserved] at hlo'
    rw [hblocks] at hlt'
    show treeFreemap.bit b = false ↔ _
    rw [Bool.eq_false_iff, ne_eq, treeFs_bit]
    constructor
    · intro hused
      exact ⟨treeOwner b, treeFs_refers.2 ⟨by omega, rfl⟩⟩
    · intro hrefers
      obtain ⟨x, hx⟩ := hrefers
      have hb := (treeFs_refers.1 hx).1
      omega
  case refers_once =>
    intro x y b hx hy
    exact (treeFs_refers.1 hx).2.trans (treeFs_refers.1 hy).2.symm
  case refers_range =>
    intro x b hx
    obtain ⟨hb, rfl⟩ := treeFs_refers.1 hx
    show b < treeFs.super.blocks
      ∧ (reservedBlocks treeFs.super ≤ b ∨ treeOwner b = (sfsBlknRoot, .self))
    rw [treeFs_reserved, hblocks]
    refine ⟨by omega, ?_⟩
    rcases hb with rfl | hb
    · exact Or.inr rfl
    · exact Or.inl hb.1
  case files_pos =>
    intro i hi
    rw [treeVolume_files] at hi
    omega
  case root => decide
  case root_dir =>
    show (inodeOf treeFs 1).type = sfsTypeDir
    rw [treeFs_inode (by decide)]
    rfl
  case loaded =>
    intro i node hnode
    have hi : i = 3 := by
      by_contra hne
      rw [show treeVolume.fs.inodes i = none from if_neg hne] at hnode
      cases hnode
    subst hi
    cases hnode
    exact ⟨by decide, treeInode_fits 3,
      fun _ => (DiskInode.ofBytes_toBytes (treeInode_fits 3)).symm⟩
  case covered =>
    intro i hi pos index hpos hle
    show target treeFs i pos = 0
    have hle' : (inodeOf treeFs i).blocks ≤ index := hle
    have hinode := treeFs_inode hi
    rw [hinode] at hle'
    have hone : 1 ≤ index := hle'
    cases pos with
    | self => cases hpos
    | direct k =>
        have hk : k.val = index := Option.some.inj hpos
        show (inodeOf treeFs i).direct k = 0
        rw [hinode]
        exact if_neg (by omega)
    | indirect => cases hpos
    | entry j => rw [target_entry, hinode, if_pos (by rfl)]

theorem treeFs_block (hi : i ∈ treeVolume.files) :
    blockAt treeFs i 0 = treeBlock i := by
  have hzero : 0 < sfsNdirect := by decide
  rw [blockAt_direct hzero, treeFs_inode hi]
  rfl

theorem treeVolume_tree : Tree treeVolume := by
  have hslot : ∀ i ∈ treeVolume.files, ∀ slot,
      slot < (inodeOf treeFs i).blocks → slot = 0 := by
    intro i hi slot hlt
    rw [treeFs_inode hi] at hlt
    exact Nat.lt_one_iff.1 hlt
  have hentry : ∀ i ∈ treeVolume.files, entryOf treeFs i 0
      = .ofBytes (treeDisk (treeBlock i)) := by
    intro i hi
    rw [entryOf, treeFs_block hi]
    rfl
  constructor
  case slots =>
    intro i hi _ slot hlt
    rw [hslot i hi slot hlt]
    show blockAt treeFs i 0 ≠ 0
    rw [treeFs_block hi]
    rcases treeVolume_files.1 hi with rfl | rfl | rfl <;> decide
  case entries =>
    intro i hi hdir slot hlt _
    rw [hslot i hi slot hlt]
    show (entryOf treeFs i 0).ino ∈ treeVolume.files
      ∧ (entryOf treeFs i 0).name ≠ [] ∧ slash ∉ (entryOf treeFs i 0).name
    rw [hentry i hi]
    have hdir' : (inodeOf treeFs i).type = sfsTypeDir := hdir
    rw [treeFs_inode hi] at hdir'
    rcases treeVolume_files.1 hi with rfl | rfl | rfl
    · decide +kernel
    · decide +kernel
    · cases hdir'
  case linked =>
    intro i hi
    show (inodeOf treeFs i).nlinks ≠ 0
    rw [treeFs_inode hi]
    exact Nat.one_ne_zero
  case type =>
    intro i hi
    show (inodeOf treeFs i).type = sfsTypeDir ∨ (inodeOf treeFs i).type = _
    rw [treeFs_inode hi]
    rcases treeVolume_files.1 hi with rfl | rfl | rfl
    · exact Or.inl rfl
    · exact Or.inl rfl
    · exact Or.inr rfl

theorem treeFs_loaded : treeFs.inodes 3 = some
    { din := treeInode 3, dirty := false, reclaimCount := 1, refCount := 1 } :=
  rfl

/-- The file `f` is looked up in its directory. -/
theorem sfsLookup_path_file : ∃ fs', sfsLookup 3 [0x66] treeFs
    = some (.ok 5, fs') ∧ Referenced treeFs fs' 5 := by
  have hcond : [(0x66 : UInt8)].length ≤ sfsMaxFnameLen
      ∧ slash ∉ [(0x66 : UInt8)] := by
    decide
  have hpath : [(0x66 : UInt8)] ≠ []
      ∧ [(0x66 : UInt8)].head? ≠ some slash := by
    decide
  have hfound := (sfsLookup_path treeVolume_consistent (.nil _)
    treeVolume_tree treeFs_loaded (by decide) hpath).2
    (Or.inr ⟨hcond.1, Or.inl hcond.2⟩)
  have hres : resolve treeFs 3 (components [0x66]) = .ok 5 := by
    decide +kernel
  have hres' : resolve treeVolume.fs 3 (components [0x66]) = .ok 5 := hres
  rw [hres'] at hfound
  exact hfound

/-- The path `d/f` leads from the root to the file, and a long name to no
entry; the one is looked up as a name, the other trips the assertion. -/
theorem sfsLookup_path_slash : Consistent treeVolume ∧ Tree treeVolume
    ∧ ∃ v, Run FileStep treeVolume [.loadInode 1] v
      ∧ resolve v.fs 1 (components [0x64, slash, 0x66]) = .ok 5
      ∧ (sfsLookup 1 [0x64, slash, 0x66] v.fs).map Prod.fst
        = some (.error .noEnt)
      ∧ resolve v.fs 1 (components (List.replicate 256 0x61))
        = .error .noEnt
      ∧ sfsLookup 1 (List.replicate 256 0x61) v.fs = none := by
  have hview : (FileOp.exec treeFs (.loadInode 1)).map (fun fs =>
      ([resolve fs 1 (components [0x64, slash, 0x66]),
        resolve fs 1 (components (List.replicate 256 0x61))],
        (sfsLookup 1 [0x64, slash, 0x66] fs).map Prod.fst,
        (sfsLookup 1 (List.replicate 256 0x61) fs).isSome))
      = some ([.ok 5, .error .noEnt], some (.error .noEnt), false) := by
    decide +kernel
  obtain ⟨fs, hload, hout⟩ := Option.map_eq_some_iff.1 hview
  simp only [Prod.mk.injEq, List.cons.injEq, Option.isSome_eq_false_iff,
    Option.isNone_iff_eq_none] at hout
  obtain ⟨⟨hfile, hlong, -⟩, hnone, hpanic⟩ := hout
  have hlegal : 1 ∈ treeVolume.files := by decide
  exact ⟨treeVolume_consistent, treeVolume_tree, ⟨fs, treeVolume.files⟩,
    .single (.call hlegal hload), hfile, hnone, hlong, hpanic⟩

end Ucore.Sfs
