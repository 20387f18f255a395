/-
What the calls of the kernel find in an image that mksfs made: `sfs_load_inode`
and `sfs_bmap_load_nolock` the blocks of each inode, and
`sfs_dirent_search_nolock` the names of each directory.
-/
import Ucore.Mksfs.Proofs.Resolve
import Ucore.Sfs.Proofs.Dir

namespace Ucore.Mksfs

open Sfs

variable {s s₀ t : Image} {tree : HostTree} {fs fs' : SfsFs} {files : Finset Nat}
  {held : Finset Nat} {node : SfsInode} {disk : Nat → Nat → UInt8}
  {info : Fin (sfsMaxInfoLen + 1) → UInt8} {i j k index ino slot size : Nat}
  {name : List UInt8} {l : Listing}

-- =========================================================== loading

/-- An inode that comes from disk has a link, and is a directory or a file. -/
theorem sfsLoadInode_kind (hnode : fs.inodes i = none)
    (hrun : sfsLoadInode i fs = some ((), fs')) : (inodeOf fs i).nlinks ≠ 0
      ∧ ((inodeOf fs i).type = sfsTypeDir ∨ (inodeOf fs i).type = sfsTypeFile)
      ∧ fs' = withNode fs i { din := inodeOf fs i, dirty := false
                              reclaimCount := 1, refCount := 1 } := by
  have hlookup : lookupSfsNolock i fs = some (false, fs) := by
    have hget : (Call.get : SfsM SfsFs) fs = some (fs, fs) := rfl
    unfold lookupSfsNolock
    rw [Call.bind_of_eq _ hget, hnode]
    rfl
  unfold sfsLoadInode at hrun
  rw [Call.bind_of_eq _ hlookup, if_neg (fun h => by cases h)] at hrun
  obtain ⟨inuse, fs₁, hinuse, hassert⟩ := Call.bind_eq_some.1 hrun
  obtain ⟨hfs₁, -⟩ := sfsBlockInuse_run hinuse
  obtain ⟨-, hbuf⟩ := Call.bind_assert_eq_some.1 hassert
  obtain ⟨buf, fs₂, hread, hlinked⟩ := Call.bind_eq_some.1 hbuf
  obtain ⟨hfs₂, hbytes⟩ := sfsRbuf_run hread
  obtain ⟨hlinks, hcreate⟩ := Call.bind_assert_eq_some.1 hlinked
  unfold sfsCreateInode at hcreate
  obtain ⟨htype, hset⟩ := Call.bind_assert_eq_some.1 hcreate
  have hdin : inodeOf fs i = DiskInode.ofBytes buf := by
    rw [inodeOf_unloaded hnode, hbytes, hfs₁]
    simp only [Nat.zero_add]
  have hfs' := setSin_run hset
  rw [hfs₂, hfs₁] at hfs'
  rw [hdin]
  exact ⟨hlinks, htype, hfs'⟩

/-- The block map of an inode does not change when one is loaded. -/
theorem blockAt_referenced (h : Referenced fs fs' j) :
    blockAt fs' i index = blockAt fs i index := by
  have htarget : ∀ pos, target fs' i pos = target fs i pos := by
    intro pos
    cases pos with
    | self => rfl
    | direct k =>
        show (inodeOf fs' i).direct k = _
        rw [h.inode]
        rfl
    | indirect =>
        show (inodeOf fs' i).indirect = _
        rw [h.inode]
        rfl
    | entry j =>
        rw [target_entry, target_entry, h.inode, h.disk]
  unfold blockAt
  split
  case isTrue => exact htarget _
  case isFalse =>
      split
      case isTrue => exact htarget _
      case isFalse => rfl

-- ======================================================== the inodes

/-- An inode of the image when it is loaded. -/
structure Loaded (s : Image) (i : Nat) (fs' : SfsFs) (node : SfsInode) : Prop where
  inode : fs'.inodes i = some node
  din : node.din = (s.nodes i).din
  inv : ∃ files, Inv ∅ ⟨fs', files⟩
  block : ∀ {k}, (hk : k < (s.stored i).length) →
    blockAt fs' i k = (s.stored i)[k]

theorem Made.load (h : Made size tree.listing s₀ s t) (hmapped : tree.Mapped)
    (hi : s.Cached i) (hlinks : (s.nodes i).din.nlinks ≠ 0)
    (htype : (s.nodes i).din.type = sfsTypeDir
      ∨ (s.nodes i).din.type = sfsTypeFile) : ∃ fs' node,
      sfsLoadInode i (s.mounted t.disk) = some ((), fs')
        ∧ Referenced (s.mounted t.disk) fs' i ∧ Loaded s i fs' node := by
  have hsound := h.sound
  obtain ⟨files, hfiles⟩ := hsound.inodes_finite
  have hcons := (h.consistent_iff hfiles).2 hmapped
  have hinode := hsound.inodeOf_mounted h.closed hi
  have hmem : i ∈ files := (hfiles i).2 hi
  have hkernel := hcons.sound True
  obtain ⟨fs', hload, hrefs⟩ := sfsLoadInode_referenced hkernel.inv hmem
    (by rw [hinode]; exact hlinks) (by rw [hinode]; exact htype)
  obtain ⟨-, -, hfs'⟩ := sfsLoadInode_kind rfl hload
  have hsound' := (sfsLoadInode_spec hkernel hmem hload).1
  refine ⟨fs', { din := inodeOf (s.mounted t.disk) i, dirty := false
                 reclaimCount := 1, refCount := 1 }, hload, hrefs,
    ⟨by rw [hfs']; exact Sfs.withNode_self, hinode, ⟨files, hsound'.inv⟩,
      fun {k} hk => ?_⟩⟩
  rw [blockAt_referenced hrefs, hsound.blockAt_mounted h.closed hi
    (Nat.lt_of_lt_of_le hk (h.shown.mapped_iff.2 hmapped i hi)),
    List.getD_eq_getElem _ _ hk]

/-- The names of a directory differ, `.` and `..` too. -/
theorem Is.nodup (h : Is s i (.dir l.names)) (hnamed : l.Named) :
    ((s.written i).map Prod.fst).Nodup := by
  have hdot : [dot] ∉ l.names := fun hin => Listing.names_visible hin (by decide)
  have hdotdot : [dot, dot] ∉ l.names :=
    fun hin => Listing.names_visible hin (by decide)
  rw [h.2.1, List.nodup_cons, List.nodup_cons, List.mem_cons]
  refine ⟨?_, hdotdot, hnamed.nodup⟩
  rintro (heq | hin)
  · cases heq
  · exact hdot hin

theorem Is.short {e : List UInt8 × Nat} (h : Is s i (.dir l.names)) (hshort : l.Short)
    (he : e ∈ s.written i) : e.1.length ≤ sizeofWritten := by
  have hmem := List.mem_map_of_mem (f := Prod.fst) he
  rw [h.2.1, List.mem_cons, List.mem_cons] at hmem
  rcases hmem with hdot | hdotdot | hname
  · rw [hdot]
    decide
  · rw [hdotdot]
    decide
  · exact hshort _ hname

/-- A search finds a name as it is on disk. -/
theorem searchResult_name {n : Nat}
    (h : searchResult fs i ((List.range n).find? (holds fs i name))
      = .ok (ino, slot)) : name = (entryOf fs i slot).name := by
  cases hfind : (List.range n).find? (holds fs i name) with
  | none =>
      rw [hfind] at h
      cases h
  | some k =>
      rw [hfind] at h
      obtain ⟨-, rfl⟩ := Prod.mk.inj (Except.ok.inj h)
      have hheld := List.find?_some hfind
      unfold holds at hheld
      rw [decide_eq_true_eq] at hheld
      exact hheld.2

/-- What a search finds when each entry is read as it was written. -/
theorem searchResult_written {es : List (List UInt8 × Nat)}
    (hnodup : (es.map Prod.fst).Nodup)
    (hentry : ∀ k (hk : k < es.length), entryOf fs i k = ⟨es[k].2, es[k].1⟩)
    (hpos : ∀ e ∈ es, e.2 ≠ 0) :
    searchResult fs i ((List.range es.length).find? (holds fs i name))
        = .ok (ino, slot)
      ↔ es[slot]? = some (name, ino) := by
  have hholds : ∀ k (hk : k < es.length),
      holds fs i name k = true ↔ name = es[k].1 := by
    intro k hk
    unfold holds
    rw [decide_eq_true_iff, hentry k hk]
    exact and_iff_right (hpos _ (List.getElem_mem hk))
  constructor
  · intro hfound
    cases hfind : (List.range es.length).find? (holds fs i name) with
    | none =>
        rw [hfind] at hfound
        cases hfound
    | some k =>
        rw [hfind] at hfound
        obtain ⟨hino, rfl⟩ := Prod.mk.inj (Except.ok.inj hfound)
        have hk := List.mem_range.1 (List.mem_of_find?_eq_some hfind)
        rw [List.getElem?_eq_getElem hk, ← hino, hentry k hk,
          (hholds k hk).1 (List.find?_some hfind)]
  · intro hget
    obtain ⟨hslot, hat⟩ := List.getElem?_eq_some_iff.1 hget
    have hfind : (List.range es.length).find? (holds fs i name) = some slot := by
      rw [List.find?_range_eq_some]
      refine ⟨(hholds slot hslot).2 (by rw [hat]), List.mem_range.2 hslot,
        fun k hk => ?_⟩
      have hk' := Nat.lt_trans hk hslot
      rw [Bool.not_eq_true', Bool.eq_false_iff]
      intro hheld
      have hfst := (hholds k hk').1 hheld
      have hk₁ : k < (es.map Prod.fst).length := by rwa [List.length_map]
      have hslot₁ : slot < (es.map Prod.fst).length := by rwa [List.length_map]
      have hsame : (es.map Prod.fst)[k] = (es.map Prod.fst)[slot] := by
        rw [List.getElem_map, List.getElem_map, ← hfst, hat]
      exact Nat.ne_of_lt hk ((List.Nodup.getElem_inj_iff hnodup).1 hsame)
    rw [hfind]
    show Except.ok ((entryOf fs i slot).ino, slot) = _
    rw [hentry slot hslot, hat]

/-- The kernel mounts the image of a tree that it can map. In each directory of it,
when it is loaded, `sfs_dirent_search_nolock` finds under each name of up to 255
bytes the inode and the slot that the name was written with, and nothing else, just
if all names are written whole. -/
theorem search_tree (hmapped : tree.Mapped)
    (hrun : createImg size disk info tree.listing = some t) :
    ∃ fs, sfsDoMount { dBlocks := size / sfsBlksize
                       dBlocksize := sfsBlksize } t.disk = some (.ok fs)
      ∧ ((∀ i, t.Cached i → (inodeOf fs i).type = sfsTypeDir →
          ∃ fs', sfsLoadInode i fs = some ((), fs')
            ∧ ∀ name : List UInt8, name.length ≤ sfsMaxFnameLen →
              ∃ r, sfsDirentSearchNolock i name fs' = some (r, fs')
                ∧ ∀ ino slot, r = .ok (ino, slot)
                  ↔ (t.written i)[slot]? = some (name, ino))
        ↔ tree.listing.All Listing.Short) := by
  obtain ⟨s₀, s, hmade⟩ := createImg_run hrun
  have hshown := hmade.shown
  have hsound := hmade.sound
  have hcached : ∀ i, t.Cached i ↔ s.Cached i := fun i => by rw [hmade.cached]
  have hwritten : t.written = s.written := by rw [hmade.rest]
  have hinode : ∀ {i}, s.Cached i →
      inodeOf (s.mounted t.disk) i = (s.nodes i).din :=
    fun hi => hsound.inodeOf_mounted hmade.closed hi
  have hsearch : ∀ {i}, s.Cached i → (s.nodes i).din.type = sfsTypeDir →
      ∃ fs', sfsLoadInode i (s.mounted t.disk) = some ((), fs')
        ∧ (∀ k (hk : k < (s.written i).length),
          entryOf fs' i k = onDisk (s.written i)[k])
        ∧ ∀ name : List UInt8, name.length ≤ sfsMaxFnameLen →
          sfsDirentSearchNolock i name fs' = some (searchResult fs' i
            ((List.range (s.written i).length).find? (holds fs' i name)), fs') := by
    intro i hi hdir
    have hlists := hshown.kept.listed hi hdir
    have hfilled := hsound.filled hi
    have hsmall := hshown.mapped_iff.2 hmapped i hi
    obtain ⟨fs', node, hload, hrefs, hloaded⟩ := hmade.load hmapped hi
      (hshown.nlinks_dir hmapped hi hdir) (Or.inl hdir)
    obtain ⟨files, hinv⟩ := hloaded.inv
    have hblocks : node.din.blocks = (s.written i).length := by
      rw [hloaded.din, hfilled.blocks, hlists.length_eq]
    refine ⟨fs', hload, fun k hk => ?_, fun name hname => ?_⟩
    · rw [← hmade.entryOf_eq hshown.kept hshown.cached hi hdir hsmall hk]
      unfold entryOf
      rw [blockAt_referenced hrefs, hrefs.disk]
    · rw [← hblocks]
      refine sfsDirentSearchNolock_eq hinv hloaded.inode
        (by rw [hloaded.din]; exact hdir) (fun slot hslot => ?_) hname
      rw [hblocks, hlists.length_eq] at hslot
      rw [hloaded.block hslot]
      exact fun heq => hfilled.pos (heq ▸ List.getElem_mem hslot)
  refine ⟨s.mounted t.disk, hmade.mounts, ?_⟩
  rw [hwritten]
  constructor
  · intro hall
    have hshort : ∀ {i} {l : Listing}, s.Cached i → Is s i (.dir l.names) →
        l.Short := by
      intro i l hi his name hname
      obtain ⟨fs', hload, hfinds⟩ := hall i ((hcached i).2 hi)
        (by rw [hinode hi]; exact his.1)
      obtain ⟨fs₁, hload₁, hentry, hsearched⟩ := hsearch hi his.1
      rw [hload] at hload₁
      obtain rfl := (Prod.mk.inj (Option.some.inj hload₁)).2
      have hmem : name ∈ (s.written i).map Prod.fst := by
        rw [his.2.1]
        exact List.mem_cons_of_mem _ (List.mem_cons_of_mem _ hname)
      obtain ⟨e, he, rfl⟩ := List.mem_map.1 hmem
      obtain ⟨slot, hslot, hat⟩ := List.mem_iff_getElem.1 he
      have hlists := hshown.kept.listed hi his.1
      have hlen := (hlists.get hslot (hlists.length_eq ▸ hslot)).2.2.1
      rw [List.get_eq_getElem, hat] at hlen
      obtain ⟨r, hfound, hr⟩ := hfinds e.1 hlen
      rw [hsearched e.1 hlen] at hfound
      rw [(hr e.2 slot).2 (by rw [List.getElem?_eq_getElem hslot, hat])] at hfound
      have hname := searchResult_name (Prod.mk.inj (Option.some.inj hfound)).1
      rw [hentry slot hslot, hat] at hname
      rw [hname]
      exact List.length_take_le ..
    refine ⟨hshort hshown.cached hshown.root, fun d hd => ?_⟩
    obtain ⟨i, hi, his⟩ := hshown.all (.dir d.2.names) ⟨d, hd, rfl⟩
    exact hshort hi his
  · intro hshort i hi hdir
    have hi' := (hcached i).1 hi
    rw [hinode hi'] at hdir
    have hlists := hshown.kept.listed hi' hdir
    obtain ⟨l, hnamed, his, -, hall⟩ := hshown.listing hi' hdir
    obtain ⟨fs', hload, hentry, hsearched⟩ := hsearch hi' hdir
    refine ⟨fs', hload, fun name hname => ⟨_, hsearched name hname, fun ino slot => ?_⟩⟩
    refine searchResult_written (his.nodup hnamed) (fun k hk => ?_)
      (fun e he => hsound.pos (hlists.cached he))
    rw [hentry k hk, onDisk, List.take_of_length_le]
    exact his.short (hall _ hshort) (List.getElem_mem hk)

theorem search_tree_small : ∃ t, createImg (16 * sfsBlksize) (fun _ _ => 0)
      (fun _ => 0) smallHost.listing = some t
    ∧ ∃ fs, sfsDoMount { dBlocks := 16, dBlocksize := sfsBlksize } t.disk
        = some (.ok fs)
      ∧ ∀ i, t.Cached i → (inodeOf fs i).type = sfsTypeDir →
        ∃ fs', sfsLoadInode i fs = some ((), fs')
          ∧ ∀ name : List UInt8, name.length ≤ sfsMaxFnameLen →
            ∃ r, sfsDirentSearchNolock i name fs' = some (r, fs')
              ∧ ∀ ino slot, r = .ok (ino, slot)
                ↔ (t.written i)[slot]? = some (name, ino) := by
  obtain ⟨t, hrun⟩ := smallHost_made
  obtain ⟨fs, hmount, hsearch⟩ := search_tree smallHost_mapped hrun
  exact ⟨t, hrun, fs, hmount, hsearch.2 smallHost_short⟩

end Ucore.Mksfs
