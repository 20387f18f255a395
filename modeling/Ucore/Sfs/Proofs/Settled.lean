/-
Calls that take and drop references in a directory tree. They write inodes
back and change nothing else, so each file and each directory is as it was;
and a lookup loads inodes of the volume only, as the entries name no other.
-/
import Ucore.Sfs.Proofs.Dir
import Mathlib.Data.List.Find

namespace Ucore.Sfs

variable {fs fs' fs₁ : SfsFs} {files held : Finset Nat} {i j k : Nat}
  {node : SfsInode} {path name : List UInt8} {v : Volume}

-- ================================================= data that is kept

/-- An inode has the fields, the blocks and the data that it had. -/
structure SameData (fs fs' : SfsFs) (k : Nat) : Prop where
  inode : inodeOf fs' k = inodeOf fs k
  block : ∀ index, blockAt fs' k index = blockAt fs k index
  data : ∀ index, blockAt fs k index ≠ 0 →
    fs'.disk (blockAt fs k index) = fs.disk (blockAt fs k index)

theorem SameData.trans (h : SameData fs fs₁ k) (h' : SameData fs₁ fs' k) :
    SameData fs fs' k := by
  refine ⟨h'.inode.trans h.inode,
    fun index => (h'.block index).trans (h.block index), fun index hne => ?_⟩
  have hdata := h'.data index
  rw [h.block index] at hdata
  exact (hdata hne).trans (h.data index hne)

theorem SameData.file (h : SameData fs fs' k) : SameFile fs fs' k := by
  refine ⟨h.inode, h.block, fun o hne => ?_⟩
  unfold fileByte
  rw [h.block, h.data _ hne]

theorem SameData.entry {slot : Nat} (h : SameData fs fs' k)
    (hne : blockAt fs k slot ≠ 0) : entryOf fs' k slot = entryOf fs k slot := by
  unfold entryOf
  rw [h.block, h.data slot hne]

/-- A directory has the names that it had. -/
theorem SameData.resolve (h : SameData fs fs' k)
    (hslots : (inodeOf fs k).type = sfsTypeDir →
      ∀ slot < (inodeOf fs k).blocks, blockAt fs k slot ≠ 0) :
    Sfs.resolve fs' k [name] = Sfs.resolve fs k [name] := by
  by_cases hdir : (inodeOf fs k).type = sfsTypeDir
  · have hentry : ∀ slot ∈ List.range (inodeOf fs k).blocks,
        entryOf fs' k slot = entryOf fs k slot := fun slot hslot =>
      h.entry (hslots hdir slot (List.mem_range.1 hslot))
    have hfind : (List.range (inodeOf fs k).blocks).find? (holds fs' k name)
        = (List.range (inodeOf fs k).blocks).find? (holds fs k name) := by
      apply List.find?_congr
      intro slot hslot
      unfold holds
      rw [hentry slot hslot]
    have hname : lookupName fs' k name = lookupName fs k name := by
      unfold lookupName
      rw [h.inode, hfind]
      apply Option.map_congr
      intro slot hslot
      rw [hentry slot (List.mem_of_find?_eq_some hslot)]
    rw [resolve_name hdir, resolve_name (h.inode.symm ▸ hdir), hname]
  · unfold Sfs.resolve
    rw [h.inode, if_pos hdir, if_pos hdir]

/-- A tree stays one where only files change. -/
theorem Tree.data (h : Tree ⟨fs, files⟩)
    (hdata : ∀ k ∈ files, SameData fs fs' k
      ∨ (inodeOf fs' k).type = sfsTypeFile ∧ (inodeOf fs' k).nlinks ≠ 0) :
    Tree ⟨fs', files⟩ := by
  -- a directory is one that was not changed
  have hdir : ∀ k ∈ files, (inodeOf fs' k).type = sfsTypeDir →
      SameData fs fs' k := by
    intro k hk hdir
    rcases hdata k hk with hsame | ⟨hfile, -⟩
    · exact hsame
    · rw [hdir] at hfile
      cases hfile
  constructor
  case slots =>
    intro k hk htype slot hlt
    have hsame := hdir k hk htype
    show blockAt fs' k slot ≠ 0
    rw [hsame.block]
    rw [hsame.inode] at htype hlt
    exact h.slots k hk htype slot hlt
  case entries =>
    intro k hk htype slot hlt
    have hsame := hdir k hk htype
    rw [hsame.inode] at htype hlt
    rw [hsame.entry (h.slots k hk htype slot hlt)]
    exact h.entries k hk htype slot hlt
  case linked =>
    intro k hk
    rcases hdata k hk with hsame | ⟨-, hlinks⟩
    · rw [hsame.inode]
      exact h.linked k hk
    · exact hlinks
  case type =>
    intro k hk
    rcases hdata k hk with hsame | ⟨hfile, -⟩
    · rw [hsame.inode]
      exact h.type k hk
    · exact Or.inr hfile

-- =============================================== inodes written back

/-- The inodes are as they were, and no other block was written. -/
structure Untouched (files : Finset Nat) (fs fs' : SfsFs) : Prop where
  inode : ∀ k ∈ files, inodeOf fs' k = inodeOf fs k
  disk : ∀ b, b ∉ files → fs'.disk b = fs.disk b

theorem Untouched.refl (files : Finset Nat) (fs : SfsFs) :
    Untouched files fs fs :=
  ⟨fun _ _ => rfl, fun _ _ => rfl⟩

theorem Untouched.trans (h : Untouched files fs fs₁)
    (h' : Untouched files fs₁ fs') : Untouched files fs fs' :=
  ⟨fun k hk => (h'.inode k hk).trans (h.inode k hk),
    fun b hb => (h'.disk b hb).trans (h.disk b hb)⟩

theorem Referenced.untouched (h : Referenced fs fs' j) :
    Untouched files fs fs' :=
  ⟨fun k _ => h.inode k, fun b _ => congrFun h.disk b⟩

/-- A block that an inode refers to elsewhere is that of no inode. -/
theorem Inv.target_notMem {pos : Pos} (h : Inv held ⟨fs, files⟩)
    (hk : k ∈ files) (hne : target fs k pos ≠ 0) (hpos : pos ≠ .self) :
    target fs k pos ∉ files := by
  intro hmem
  have hself := h.refers_self hmem
  have hdata : Refers ⟨fs, files⟩ (k, pos) (target fs k pos) :=
    ⟨hk, rfl, hne⟩
  have hsame := congrArg Prod.snd (h.exact.inj hdata hself)
  exact hpos hsame

theorem Untouched.target (h : Untouched files fs fs')
    (hinv : Inv held ⟨fs, files⟩) (hk : k ∈ files) (pos : Pos) :
    target fs' k pos = target fs k pos := by
  apply target_congr (SameMap.of_eq (h.inode k hk))
  intro hne j
  have hind : Sfs.target fs k .indirect ≠ 0 := hne
  have hmem : (inodeOf fs k).indirect ∉ files :=
    hinv.target_notMem hk hind (fun h => by cases h)
  unfold entryAt
  rw [h.disk _ hmem]

/-- The data blocks were not written. -/
theorem Untouched.sameData (h : Untouched files fs fs')
    (hinv : Inv held ⟨fs, files⟩) (hk : k ∈ files) : SameData fs fs' k := by
  refine ⟨h.inode k hk, fun index => ?_, fun index hne => ?_⟩
  · exact blockAt_congr fun pos _ => h.target hinv hk pos
  · apply h.disk
    have hlt : index < maxBlocks := by
      by_contra hge
      exact hne (blockAt_past (Nat.not_lt.1 hge))
    obtain ⟨pos, hpos⟩ := exists_pos hlt
    rw [blockAt_eq_target hpos] at hne ⊢
    apply hinv.target_notMem hk hne
    rintro rfl
    cases hpos

theorem Untouched.tree (h : Untouched files fs fs')
    (hinv : Inv held ⟨fs, files⟩) (htree : Tree ⟨fs, files⟩) :
    Tree ⟨fs', files⟩ :=
  htree.data fun _ hk => Or.inl (h.sameData hinv hk)

-- ======================================================== references

/-- A directory tree whose inodes are in memory as they are on disk, if they
are not dirty. -/
structure Settled (files : Finset Nat) (fs : SfsFs) : Prop where
  sound : Sound True files fs
  onDisk : ∀ i, OnDisk fs i
  tree : Tree ⟨fs, files⟩

theorem Consistent.settled (h : Consistent v) (htree : Tree v) :
    Settled v.files v.fs :=
  ⟨h.sound True, fun _ _ hnode hclean => (h.loaded hnode).2.2 hclean, htree⟩

/-- What a call leaves of a tree that it only looks inodes up in. -/
structure Looks (files : Finset Nat) (fs fs' : SfsFs) : Prop where
  settled : Settled files fs'
  untouched : Untouched files fs fs'

theorem Settled.refl (h : Settled files fs) : Looks files fs fs :=
  ⟨h, Untouched.refl files fs⟩

theorem Looks.trans (h : Looks files fs fs₁) (h' : Looks files fs₁ fs') :
    Looks files fs fs' :=
  ⟨h'.settled, h.untouched.trans h'.untouched⟩

theorem Looks.sameData (h : Looks files fs fs') (hfs : Settled files fs)
    (hk : k ∈ files) : SameData fs fs' k :=
  h.untouched.sameData hfs.sound.inv hk

/-- A call that writes one inode back. -/
theorem Writes.allOnDisk (hwrites : Writes True files i fs fs')
    (h : Sound True files fs) (hdisk : ∀ k, OnDisk fs k) (k : Nat) :
    OnDisk fs' k := by
  by_cases hk : k = i
  · subst hk
    exact hwrites.onDisk trivial (hdisk k)
  · intro node hnode hclean
    rw [hwrites.others hk] at hnode
    have hin := (h.inv.loaded hnode).1
    rw [hwrites.quiet.disk (Or.inl (Finset.mem_erase.2 ⟨hk, hin⟩))]
    exact hdisk k node hnode hclean

theorem Settled.looks (h : Settled files fs) (hsound : Sound True files fs')
    (hwrites : Writes True files i fs fs')
    (huntouched : Untouched files fs fs') : Looks files fs fs' := by
  exact ⟨⟨hsound, hwrites.allOnDisk h.sound h.onDisk,
    huntouched.tree h.sound.inv h.tree⟩, huntouched⟩

theorem Settled.refInc {refs : Int} (h : Settled files fs)
    (hrun : inodeRefInc i fs = some (refs, fs')) : Looks files fs fs' := by
  obtain ⟨hsound, hwrites⟩ := inodeRefInc_spec h.sound hrun
  obtain ⟨node, hnode⟩ : ∃ node, fs.inodes i = some node := by
    unfold inodeRefInc at hrun
    obtain ⟨node, _, hget, -⟩ := Call.bind_eq_some.1 hrun
    exact ⟨node, (getSin_run hget).1⟩
  rw [inodeRefInc_eq hnode] at hrun
  cases hrun
  exact h.looks hsound hwrites (Referenced.untouched
    (.of_store (inodeOf_loaded hnode).symm (by rw [refCount_loaded hnode])))

theorem Settled.load {u : Unit} (h : Settled files fs) (hj : j ∈ files)
    (hrun : sfsLoadInode j fs = some (u, fs')) : Looks files fs fs' := by
  obtain ⟨hsound, hwrites⟩ := sfsLoadInode_spec h.sound hj hrun
  obtain ⟨fs₁, hload, hrefs⟩ := sfsLoadInode_referenced h.sound.inv hj
    (h.tree.linked j hj) (h.tree.type j hj)
  rw [hload] at hrun
  cases hrun
  exact h.looks hsound hwrites hrefs.untouched

theorem Settled.refDec {u : Unit} (h : Settled files fs)
    (hrun : inodeRefDec i fs = some (u, fs')) : Looks files fs fs' := by
  obtain ⟨hwrites, node, hnode, hleft⟩ :=
    inodeRefDec_spec h.sound (fun _ => h.onDisk i) hrun
  have hi := (h.sound.inv.loaded hnode).1
  have hlinks : node.din.nlinks ≠ 0 := by
    have hlinked := h.tree.linked i hi
    dsimp only at hlinked
    rwa [inodeOf_loaded hnode] at hlinked
  have hsound : Sound True files fs' := by
    rcases hleft with ⟨hsound, -⟩ | ⟨hsound, -⟩
    · rwa [filesWithout, if_neg hlinks] at hsound
    · exact hsound
  refine h.looks hsound hwrites ?_
  rcases inodeRefDec_kept hnode (h.sound.inv.loaded hnode).2.1 (h.onDisk i)
    hrun with ⟨hzero, -⟩ | ⟨hsame, hdisk, -⟩
  · exact absurd hzero hlinks
  · refine ⟨fun k hk => ?_, fun b hb => hdisk b fun heq => hb (heq ▸ hi)⟩
    by_cases heq : k = i
    · rw [heq, hsame, inodeOf_loaded hnode]
    · exact inodeOf_other hwrites.others hwrites.quiet hk heq

-- =========================================================== lookups

theorem Settled.lookupOnce {r : Except Err Nat} (h : Settled files fs)
    (hnode : fs.inodes i = some node) (hdir : node.din.type = sfsTypeDir)
    (hrun : sfsLookupOnce i name fs = some (r, fs')) :
    Looks files fs fs' ∧ r = resolve fs i [name] := by
  have hi := (h.sound.inv.loaded hnode).1
  have hdin := inodeOf_loaded hnode
  have hdir' : (inodeOf fs i).type = sfsTypeDir := by
    rw [hdin]
    exact hdir
  have hslots := h.tree.slots i hi hdir'
  dsimp only at hslots
  rw [hdin] at hslots
  by_cases hlen : name.length ≤ sfsMaxFnameLen
  · have hsearch :=
      sfsDirentSearchNolock_eq h.sound.inv hnode hdir hslots hlen
    unfold sfsLookupOnce at hrun
    rw [Call.bind_of_eq _ hsearch] at hrun
    cases hfind : (List.range node.din.blocks).find? (holds fs i name) with
    | none =>
        rw [hfind] at hrun
        obtain ⟨rfl, rfl⟩ := Call.pure_eq_some.1 hrun
        refine ⟨h.refl, ?_⟩
        rw [resolve_name hdir', lookupName, hdin, hfind]
        rfl
    | some slot =>
        rw [hfind] at hrun
        dsimp only [searchResult] at hrun
        obtain ⟨_, fs₁, hload, hpure⟩ := Call.bind_eq_some.1 hrun
        obtain ⟨rfl, rfl⟩ := Call.pure_eq_some.1 hpure
        have hname : lookupName fs i name
            = some (entryOf fs i slot).ino := by
          rw [lookupName, hdin, hfind]
          rfl
        obtain ⟨slot', hlt, hj, hne, -⟩ := lookupName_some hname
        have hentry := h.tree.entries i hi hdir' slot' hlt (hj ▸ hne)
        dsimp only at hentry
        rw [hj] at hentry
        refine ⟨h.load hentry.1 hload, ?_⟩
        rw [resolve_name hdir', hname]
  · rw [sfsLookupOnce_long (Nat.not_le.1 hlen)] at hrun
    cases hrun

/-- `sfs_lookup` looks its path up as one name. -/
theorem Settled.lookup {r : Except Err Nat} (h : Settled files fs)
    (hrun : sfsLookup i path fs = some (r, fs')) :
    Looks files fs fs' ∧ r = resolve fs i [path] := by
  unfold sfsLookup at hrun
  rw [Call.bind_eq_some] at hrun
  obtain ⟨_, _, hassert, hrun⟩ := hrun
  obtain ⟨-, hsame⟩ := Call.assert_eq_some.1 hassert
  rw [hsame] at hrun
  obtain ⟨_, fs₁, hinc, hrun⟩ := Call.bind_eq_some.1 hrun
  obtain ⟨node, fs₂, hget, hrun⟩ := Call.bind_eq_some.1 hrun
  obtain ⟨hnode, hsame⟩ := getSin_run hget
  rw [hsame] at hrun
  have h₁ := h.refInc hinc
  have hi := (h₁.settled.sound.inv.loaded hnode).1
  have hdin := inodeOf_loaded hnode
  have hsameData := h₁.untouched.sameData h.sound.inv hi
  split at hrun
  case isTrue hfile =>
      obtain ⟨_, fs₃, hdec, hpure⟩ := Call.bind_eq_some.1 hrun
      obtain ⟨rfl, rfl⟩ := Call.pure_eq_some.1 hpure
      refine ⟨h₁.trans (h₁.settled.refDec hdec), ?_⟩
      rw [← hsameData.resolve fun hdir => h.tree.slots i hi hdir, resolve,
        hdin, if_pos hfile]
  case isFalse hdir =>
      rw [not_not] at hdir
      obtain ⟨ret, fs₃, honce, hrun⟩ := Call.bind_eq_some.1 hrun
      obtain ⟨_, fs₄, hdec, hpure⟩ := Call.bind_eq_some.1 hrun
      obtain ⟨rfl, rfl⟩ := Call.pure_eq_some.1 hpure
      obtain ⟨h₂, rfl⟩ := h₁.settled.lookupOnce hnode hdir honce
      refine ⟨(h₁.trans h₂).trans (h₂.settled.refDec hdec), ?_⟩
      exact hsameData.resolve fun hdir => h.tree.slots i hi hdir

-- ========================================================== resizing

/-- What a call that resizes file `i` leaves of the tree. -/
structure Resized (files : Finset Nat) (i : Nat) (fs fs' : SfsFs) : Prop where
  settled : Settled files fs'
  others : ∀ k ∈ files, k ≠ i → SameData fs fs' k
  type : (inodeOf fs' i).type = (inodeOf fs i).type

/-- A call that leaves all but one regular file, and that linked. -/
theorem Settled.resized (h : Settled files fs) (hsound : Sound True files fs')
    (hwrites : Writes True files i fs fs')
    (hothers : ∀ k ∈ files, k ≠ i → SameData fs fs' k)
    (hfile : (inodeOf fs i).type = sfsTypeFile)
    (htype : (inodeOf fs' i).type = (inodeOf fs i).type)
    (hlinks : (inodeOf fs' i).nlinks = (inodeOf fs i).nlinks) :
    Resized files i fs fs' := by
  refine ⟨⟨hsound, hwrites.allOnDisk h.sound h.onDisk, ?_⟩, hothers, htype⟩
  apply h.tree.data
  intro k hk
  by_cases heq : k = i
  · subst heq
    rw [htype, hlinks]
    exact Or.inr ⟨hfile, h.tree.linked k hk⟩
  · exact Or.inl (hothers k hk heq)

/-- A `vop_truncate` that does not fail marks the inode, or changes nothing
as the file has the length. -/
theorem vopTruncate_ok {u : Unit} {len : Int}
    (hrun : vopTruncate i len fs = some (.ok u, fs')) :
    (inodeOf fs i).size = len.toNat ∧ fs' = fs
      ∨ (inodeOf fs i).size ≠ len.toNat
        ∧ ∃ node, fs'.inodes i = some node ∧ node.dirty = true := by
  unfold vopTruncate at hrun
  simp only [Call.bind_eq_some, Call.assert_eq_some] at hrun
  obtain ⟨node, _, hget, _, _, ⟨-, rfl⟩, hrun⟩ := hrun
  obtain ⟨hnode, hsame⟩ := getSin_run hget
  rw [hsame] at hrun
  unfold sfsTruncfile at hrun
  split at hrun
  case isTrue =>
      obtain ⟨hno, -⟩ := Call.pure_eq_some.1 hrun
      cases hno
  case isFalse hrange =>
      rw [Call.bind_of_eq _ (getSin_eq hnode)] at hrun
      dsimp only at hrun
      split at hrun
      case isTrue hsize =>
          simp only [Call.bind_eq_some, Call.assert_eq_some,
            Call.pure_eq_some] at hrun
          obtain ⟨_, _, ⟨-, rfl⟩, -, rfl⟩ := hrun
          exact Or.inl ⟨(inodeOf_loaded hnode).symm ▸ hsize, rfl⟩
      case isFalse hsize =>
          obtain ⟨ret, fs₁, -, hrun⟩ := Call.bind_eq_some.1 hrun
          cases ret with
          | error e =>
              obtain ⟨hno, -⟩ := Call.pure_eq_some.1 hrun
              cases hno
          | ok _ =>
              simp only [Call.bind_eq_some, Call.assert_eq_some,
                Call.pure_eq_some] at hrun
              obtain ⟨_, _, -, _, _, -, _, fs₂, hset, -, rfl⟩ := hrun
              obtain rfl := setSin_run hset
              exact Or.inr ⟨(inodeOf_loaded hnode).symm ▸ hsize,
                _, withNode_self, rfl⟩

/-- `vop_truncate` changes no other file. -/
theorem Settled.truncate {u : Unit} {len : Int} (h : Settled files fs)
    (hrun : vopTruncate i len fs = some (.ok u, fs')) :
    Resized files i fs fs' ∧ (inodeOf fs' i).size = len.toNat
      ∧ SizeAgrees (inodeOf fs' i) := by
  obtain ⟨hsound, hframe, -⟩ := vopTruncate_spec h.sound hrun
  have hdisk : OnDisk fs' i := by
    rcases vopTruncate_ok hrun with ⟨-, rfl⟩ | ⟨-, node, hnode, hdirty⟩
    · exact h.onDisk i
    · exact OnDisk.of_dirty hnode hdirty
  unfold vopTruncate at hrun
  simp only [Call.bind_eq_some, Call.assert_eq_some] at hrun
  obtain ⟨node, _, hget, _, _, ⟨hfile, rfl⟩, hrun⟩ := hrun
  obtain ⟨hnode, hsame⟩ := getSin_run hget
  rw [hsame] at hrun
  obtain ⟨node', hnode', htype, hout⟩ := sfsTruncfile_outcome h.sound hnode hrun
  obtain ⟨node₁, hnode₁, hlinks⟩ := hframe.links hnode
  rw [hnode'] at hnode₁
  cases hnode₁
  have hkept : Kept files i 0 fs fs' :=
    sfsTruncfile_kept h.sound hnode hrun (Nat.zero_le _) (Nat.zero_le _)
  have hothers : ∀ k ∈ files, k ≠ i → SameData fs fs' k := by
    intro k hk hne
    have hheld := fun index => hkept.held k hk index fun heq => absurd heq hne
    exact ⟨inodeOf_other hframe.others
        (hframe.quiet.mono (Finset.erase_subset i files)) hk hne,
      fun index => (hheld index).1, fun index => (hheld index).2⟩
  have hresized := h.resized hsound (hframe.writes fun _ _ => hdisk) hothers
  rw [inodeOf_loaded hnode, inodeOf_loaded hnode'] at hresized
  rw [inodeOf_loaded hnode']
  refine ⟨hresized hfile htype hlinks, ?_⟩
  rcases hout with ⟨-, hsize, hblocks⟩ | ⟨hno, -⟩ | ⟨hno, -⟩
  · refine ⟨hsize, ?_⟩
    unfold SizeAgrees
    rw [hblocks, hsize]
  · cases hno
  · cases hno

/-- What a call that empties file `i` leaves of the tree: all of it, if the
file was empty. -/
structure Emptied (files : Finset Nat) (i : Nat) (fs fs' : SfsFs) : Prop where
  resized : Resized files i fs fs'
  size : (inodeOf fs' i).size = 0
  agrees : SizeAgrees (inodeOf fs' i)
  same : (inodeOf fs i).size = 0 → fs' = fs

/-- `vop_truncate` to no bytes needs no block, so it does not fail. -/
theorem Settled.empty {r : Except Err Unit} (h : Settled files fs)
    (hrun : vopTruncate i 0 fs = some (r, fs')) :
    r = .ok () ∧ Emptied files i fs fs' := by
  have hok : r = .ok () := by
    unfold vopTruncate at hrun
    simp only [Call.bind_eq_some, Call.assert_eq_some] at hrun
    obtain ⟨node, _, hget, _, _, ⟨-, rfl⟩, hrun⟩ := hrun
    obtain ⟨hnode, hsame⟩ := getSin_run hget
    rw [hsame] at hrun
    obtain ⟨_, -, -, hout⟩ := sfsTruncfile_outcome h.sound hnode hrun
    rcases hout with ⟨rfl, -⟩ | ⟨-, -, hrange⟩ | ⟨-, -, hmore, -⟩
    · rfl
    · exact absurd hrange (by decide)
    · exact absurd hmore (Nat.not_lt_zero _)
  subst hok
  obtain ⟨hresized, hsize, hagrees⟩ := h.truncate hrun
  refine ⟨rfl, hresized, hsize, hagrees, fun hzero => ?_⟩
  rcases vopTruncate_ok hrun with ⟨-, hsame⟩ | ⟨hother, -⟩
  · exact hsame
  · exact absurd hzero hother

/-- Writing an inode back. -/
theorem Settled.fsync {u : Unit} (h : Settled files fs)
    (hrun : sfsFsync i fs = some (u, fs')) : Looks files fs fs' := by
  obtain ⟨hsound, hwrites, -⟩ := sfsFsync_spec h.sound hrun
  obtain ⟨hflushed, -⟩ := sfsFsync_flushed h.sound hrun
  refine h.looks hsound hwrites ⟨fun k hk => hflushed.inode hk, fun b hb => ?_⟩
  obtain ⟨node, hnode, hout⟩ := sfsFsync_run hrun
  rcases hout with ⟨-, rfl⟩ | rfl
  · rfl
  · refine Function.update_of_ne ?_ _ _
    rintro rfl
    exact hb (h.sound.inv.loaded hnode).1

-- ================================================== sizes and blocks

/-- A tree of which each regular file has the blocks for its size, if it had
them before. -/
structure Steady (files : Finset Nat) (fs fs' : SfsFs) : Prop where
  settled : Settled files fs'
  spared : ∀ k ∈ files, Spared fs fs' k

theorem Looks.steady (h : Looks files fs fs') : Steady files fs fs' :=
  ⟨h.settled, fun k hk => Spared.of_eq (h.untouched.inode k hk)⟩

theorem Spared.trans (h : Spared fs fs₁ k) (h' : Spared fs₁ fs' k) :
    Spared fs fs' k :=
  ⟨h'.type.trans h.type, fun hagrees => h'.size (h.size hagrees)⟩

theorem Steady.trans (h : Steady files fs fs₁) (h' : Steady files fs₁ fs') :
    Steady files fs fs' :=
  ⟨h'.settled, fun k hk => (h.spared k hk).trans (h'.spared k hk)⟩

theorem Steady.sizesAgree (h : Steady files fs fs')
    (hsizes : SizesAgree ⟨fs, files⟩) : SizesAgree ⟨fs', files⟩ := by
  intro k hk hfile
  have hspared := h.spared k hk
  exact hspared.size (hsizes k hk (hspared.type.symm.trans hfile))

theorem Looks.sizesAgree (h : Looks files fs fs') :
    SizesAgree ⟨fs', files⟩ ↔ SizesAgree ⟨fs, files⟩ := by
  constructor
  · intro hsizes k hk hfile
    have hsame : inodeOf fs' k = inodeOf fs k := h.untouched.inode k hk
    have hagrees := hsizes k hk (hsame.symm ▸ hfile)
    rw [← hsame]
    exact hagrees
  · exact h.steady.sizesAgree

theorem Resized.steady (h : Resized files i fs fs')
    (hagrees : SizeAgrees (inodeOf fs' i)) : Steady files fs fs' := by
  refine ⟨h.settled, fun k hk => ?_⟩
  by_cases heq : k = i
  · subst heq
    exact ⟨h.type, fun _ => hagrees⟩
  · exact Spared.of_eq (h.others k hk heq).inode

/-- A `vop_tryseek` that does not fail. -/
theorem Settled.tryseek {u : Unit} {pos : Int} (h : Settled files fs)
    (hrun : vopTryseek i pos fs = some (.ok u, fs')) : Steady files fs fs' := by
  rcases vopTryseek_run hrun with ⟨-, rfl⟩ | ⟨-, -, htruncate⟩
  · exact h.refl.steady
  · obtain ⟨hresized, -, hagrees⟩ := h.truncate htruncate
    exact hresized.steady hagrees

/-- `vop_read` and `vop_write` change the size of the file at most; then it
has the blocks for it just where the size takes as many as before. -/
theorem Settled.io {r : Except Err Nat} {offset : Int} {alen : Nat}
    {write : Bool} (h : Settled files fs)
    (hrun : vopIo i offset alen write fs = some (r, fs')) :
    Settled files fs' ∧ (SizesAgree ⟨fs, files⟩ →
      (SizesAgree ⟨fs', files⟩ ↔ ¬ (Stretches fs i offset alen write
        ∧ roundupDiv offset.toNat sfsBlksize
          ≠ roundupDiv (inodeOf fs i).size sfsBlksize))) := by
  have hio := hrun
  unfold vopIo at hio
  simp only [Call.bind_eq_some, Call.assert_eq_some] at hio
  obtain ⟨_, _, hget, _, _, ⟨-, rfl⟩, hio⟩ := hio
  obtain ⟨-, hsame⟩ := getSin_run hget
  rw [hsame] at hio
  obtain ⟨hsound, hwrites⟩ := sfsIoNolock_spec h.sound hio
  obtain ⟨node, hnode, hfile, ⟨hno, rfl⟩ | ⟨hstretches, rfl⟩⟩ := vopIo_run hrun
  · exact ⟨h, fun hsizes => iff_of_true hsizes fun hboth => hno hboth.1⟩
  · have hi := (h.sound.inv.loaded hnode).1
    have hdin := inodeOf_loaded hnode
    let node' : SfsInode := { node with
      din := { node.din with size := offset.toNat }, dirty := true }
    have hmap : SameMap node'.din node.din := ⟨rfl, rfl, rfl⟩
    have hdin' : inodeOf (withNode fs i node') i = node'.din :=
      inodeOf_loaded withNode_self
    have hothers : ∀ k ∈ files, k ≠ i →
        SameData fs (withNode fs i node') k := by
      intro k hk hne
      refine ⟨inodeOf_other hwrites.others hwrites.quiet hk hne,
        fun index => ?_, fun _ _ => rfl⟩
      exact blockAt_congr fun pos _ => target_withNode hnode hmap k pos
    have hresized : Resized files i fs (withNode fs i node') := by
      apply h.resized hsound hwrites hothers
      · rw [hdin]
        exact hfile
      · rw [hdin', hdin]
      · rw [hdin', hdin]
    refine ⟨hresized.settled, fun hsizes => ?_⟩
    have hagrees := hsizes i hi (hdin.symm ▸ hfile)
    constructor
    · intro hsizes' hboth
      have hagrees' := hsizes' i hi (by
        show (inodeOf (withNode fs i node') i).type = sfsTypeFile
        rw [hdin']
        exact hfile)
      apply hboth.2
      have hsame : SizeAgrees node'.din := hdin' ▸ hagrees'
      have hblocks : node.din.blocks = roundupDiv offset.toNat sfsBlksize := hsame
      rw [← hblocks, ← hdin]
      exact hagrees
    · intro hno
      apply (hresized.steady _).sizesAgree hsizes
      rw [hdin']
      show node.din.blocks = roundupDiv offset.toNat sfsBlksize
      by_contra hne
      refine hno ⟨hstretches, fun heq => hne ?_⟩
      rw [heq, ← hdin]
      exact hagrees

end Ucore.Sfs
