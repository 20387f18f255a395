/-
The inodes of an image when mksfs is done with a tree: the root directory and,
for all that is in the tree and visible, one inode of its kind.

The kernel and a tree that mksfs made an image of: the volume is consistent, and
its directories are a tree, just if the tree of the host is one that the kernel
can have.
-/
import Ucore.Mksfs.Proofs.Entries
import Ucore.Mksfs.Proofs.Mount
import Ucore.Mksfs.Proofs.Kernel
import Ucore.Sfs.Dir

namespace Ucore.Mksfs

open Sfs

variable {s s₀ t : Image} {tree : HostTree} {i size : Nat}

namespace HostTree

/-- The regular files of a tree. -/
def files (tree : HostTree) : Files := ⟨tree.listing.files, tree.sameFile⟩

theorem within (tree : HostTree) : Within tree.files tree.listing where
  mem _ hf := hf
  links _ hr _ hin := (tree.fileReal hin).2.1 hr
  dirs d hd _ hin := (tree.fileReal hin).2.2 d hd rfl
  names := tree.root.string
  below d hd := (tree.named d hd).string

end HostTree

/-- What is in a tree is in the image, and nothing else is. -/
structure Shown (tree : HostTree) (s : Image) : Prop where
  kept : Kept tree.files s
  cached : s.Cached sfsBlknRoot
  root : Is s sfsBlknRoot (.dir tree.listing.names)
  entries : ∃ es, s.written sfsBlknRoot
      = ([dot], sfsBlknRoot) :: ([dot, dot], sfsBlknRoot) :: es
    ∧ Mirrors tree.files s (· = sfsBlknRoot) sfsBlknRoot tree.listing es
  kinds : ∀ i, s.Cached i → i ≠ sfsBlknRoot →
    ∃ kind, tree.listing.Makes kind ∧ Is s i kind
  all : ∀ kind, tree.listing.Makes kind → ∃ i, s.Cached i ∧ Is s i kind
  links : ∀ i, s.Cached i → (s.nodes i).din.type = sfsTypeFile →
    (s.nodes i).din.nlinks
      = (tree.listing.files.map Prod.fst).count (s.nodes i).real % 2 ^ 16

theorem Created.kept (h : Created size s) : Kept tree.files s := by
  have hreal : ∀ {i}, s.Cached i → (s.nodes i).real = 0 := by
    intro i hi
    rw [(h.cached i).1 hi, h.root]
    rfl
  have hout : ∀ {i data}, s.Cached i → ((s.nodes i).real, data) ∉ tree.files.mem := by
    intro i data hi hin
    rw [hreal hi] at hin
    exact (tree.fileReal hin).1 rfl
  refine ⟨fun hi hin => absurd hin (hout hi), fun {i} hi htype => ?_,
    fun hi _ hin => absurd hin (hout hi), fun {i} _ _ => ?_⟩
  · rw [(h.cached i).1 hi, h.root] at htype
    exact absurd htype.symm file_ne_dir
  · rw [h.written, h.stored]
    exact List.Forall₂.nil

theorem Made.shown (h : Made size tree.listing s₀ s t) : Shown tree s := by
  have hcreated := h.created
  have hroot : s₀.Cached sfsBlknRoot := (hcreated.cached _).2 rfl
  have hdir : (s₀.nodes sfsBlknRoot).din.type = sfsTypeDir := by
    rw [hcreated.root]
    rfl
  have hzero : ∀ i, (s₀.nodes i).din.nlinks = 0 := by
    intro i
    by_cases hi : s₀.Cached i
    · rw [(hcreated.cached i).1 hi, hcreated.root]
      rfl
    · exact (hcreated.sound.fresh hi).nlinks
  obtain ⟨-, s₁, s₂, hdot, h₁, hdotdot, h₂, hloop, hev⟩ :=
    openDir_spec (readEntries_spec tree.listing) hcreated.sound hroot hroot h.run
  have hkept : Kept tree.files s₀ := hcreated.kept
  obtain ⟨hkept₂, hwritten₂⟩ := dots_kept hkept hcreated.sound hroot hroot hdot h₁
    hdotdot
  have hcached₂ : ∀ i, s₂.Cached i ↔ i = sfsBlknRoot := by
    intro i
    rw [cached_congr hdotdot.inodes, cached_congr hdot.inodes]
    exact hcreated.cached i
  have hroot₂ : s₂.Cached sfsBlknRoot := (hcached₂ _).2 rfl
  have hdir₂ : (s₂.nodes sfsBlknRoot).din.type = sfsTypeDir := by
    rw [hdotdot.type, hdot.type, hdir]
  rw [hcreated.written, List.nil_append] at hwritten₂
  have hw := readEntries_walks tree.within hkept₂ h₂ hroot₂ hdir₂ hloop
  obtain ⟨es, hes, hmirrors⟩ :=
    readEntries_mirrored tree.within hkept₂ h₂ hroot₂ hdir₂ hloop
  have hwritten : s.written sfsBlknRoot
      = ([dot], sfsBlknRoot) :: ([dot, dot], sfsBlknRoot) :: es := by
    rw [hes, hwritten₂]
    rfl
  have hcached : s.Cached sfsBlknRoot := hev.cached _ hroot₂
  refine ⟨hw.kept, hcached, ⟨(hev.type _ hroot₂).trans hdir₂, ?_, ?_⟩,
    ⟨es, hwritten, ?_⟩, fun i hi hne => ?_, fun kind hkind => ?_,
    fun i hi htype => ?_⟩
  · obtain ⟨es', hes', hnames⟩ := hw.entries
    rw [hes', hwritten₂, List.map_append, hnames]
    rfl
  · obtain ⟨k, hk, hlinks⟩ := hw.currentLinks
    refine ⟨k, hk, ?_⟩
    rw [hlinks, hdotdot.nlinks, if_pos rfl, hdot.nlinks, if_pos rfl, hzero,
      Nat.add_comm k]
    rfl
  · refine hmirrors.evolves (Evolves.refl sfsBlknRoot s) hroot₂ fun i hi => ?_
    exact (hcached₂ i).2 hi
  · exact hw.new i hi fun hin => hne ((hcached₂ i).1 hin)
  · obtain ⟨i, hi, his, -⟩ := hw.all kind hkind
    exact ⟨i, hi, his⟩
  · have hne : i ≠ sfsBlknRoot := by
      rintro rfl
      exact file_ne_dir (htype.symm.trans ((hev.type _ hroot₂).trans hdir₂))
    rw [hw.fileLinks i hi htype, hdotdot.nlinks, if_neg hne, hdot.nlinks,
      if_neg hne, hzero, Nat.zero_add]

end Ucore.Mksfs

namespace Ucore.Mksfs

open Sfs

variable {s s₀ t : Image} {tree : HostTree} {files : Finset Nat}
  {disk : Nat → Nat → UInt8} {info : Fin (sfsMaxInfoLen + 1) → UInt8}
  {b i j k n size slot : Nat}

-- ======================================================== the blocks

/-- The number of blocks of an inode of a kind. -/
def Kind.blocks : Kind → Nat
  | .dir names => names.length + 2
  | .file _ data => roundupDiv data.length sfsBlksize
  | .link => 1

theorem Is.stored {kind : Kind} {files : Files} (h : Is s i kind)
    (hkept : Kept files s) (hi : s.Cached i) :
    (s.stored i).length = kind.blocks := by
  cases kind with
  | dir names =>
      obtain ⟨htype, hnames, -⟩ := h
      have hlen := congrArg List.length hnames
      rw [List.length_map] at hlen
      rw [← (hkept.listed hi htype).length_eq, hlen]
      rfl
  | file real data =>
      obtain ⟨-, -, -, hholds⟩ := h
      rw [← hholds.length_eq, List.length_range]
      rfl
  | link => exact h.2

theorem Kind.blocks_le (h : tree.Mapped) {kind : Kind}
    (hkind : tree.listing.Makes kind) : kind.blocks ≤ maxBlocks := by
  cases kind with
  | dir names =>
      obtain ⟨d, hd, rfl⟩ := hkind
      exact h.dirs d hd
  | file real data => exact h.files _ hkind
  | link => exact (by decide : 1 ≤ maxBlocks)

/-- No inode has more blocks than the kernel can map just if the tree has no such
file or directory. -/
theorem Shown.mapped_iff (h : Shown tree s) :
    (∀ i, s.Cached i → (s.stored i).length ≤ maxBlocks) ↔ tree.Mapped := by
  constructor
  · intro hsmall
    have hall : ∀ kind, tree.listing.Makes kind → kind.blocks ≤ maxBlocks := by
      intro kind hkind
      obtain ⟨i, hi, his⟩ := h.all kind hkind
      rw [← his.stored h.kept hi]
      exact hsmall i hi
    refine ⟨?_, fun d hd => hall (.dir d.2.names) ⟨d, hd, rfl⟩,
      fun f hf => hall (.file f.1 f.2) hf⟩
    have hroot := hsmall _ h.cached
    rw [h.root.stored h.kept h.cached] at hroot
    exact hroot
  · intro hmapped i hi
    by_cases hroot : i = sfsBlknRoot
    · rw [hroot, h.root.stored h.kept h.cached]
      exact hmapped.root
    · obtain ⟨kind, hkind, his⟩ := h.kinds i hi hroot
      rw [his.stored h.kept hi]
      exact Kind.blocks_le hmapped hkind

-- ======================================================= the entries

/-- What `close_sfs` writes is not where the blocks of files and directories
are. -/
theorem Sound.not_flushed (h : Sound ∅ s) (hroot : s.Cached sfsBlknRoot)
    (hi : s.Cached i) (hb : b ∈ s.stored i) : ¬ s.Flushed b := by
  have hfilled := h.filled hi
  have hexact := h.placed.owned.exact
  have hne : b ≠ 0 := fun heq => hfilled.pos (heq ▸ hb)
  obtain ⟨n, hn, hget⟩ := List.mem_iff_getElem.1 hb
  have hrefers : s.view.Refers s.Cached (i, .data n) b := by
    refine ⟨hi, ?_, hne⟩
    show s.view.target i (.data n) = b
    rw [hfilled.data, List.getD_eq_getElem _ _ hn, hget]
  have hself : ¬ s.Cached b := by
    intro hcached
    have heq := hexact.inj hrefers (y := (b, .self)) ⟨hcached, rfl, hne⟩
    cases (Prod.mk.inj heq).2
  have hlo := root_lt_first s.ninos
  rintro (hsuper | hmap | hbuf | hcached)
  · exact hne hsuper
  · rcases hexact.used_iff.2 (Or.inl ⟨_, hrefers⟩) with hrange | hb
    · omega
    · exact hself (hb ▸ hroot)
  · obtain ⟨x, hmeta, hx⟩ := h.placed.owned.buf_iff.1 hbuf
    rw [hexact.inj hx hrefers] at hmeta
    exact hmeta
  · exact hself hcached

/-- An entry as it is on disk. -/
def onDisk (e : List UInt8 × Nat) : DiskEntry := ⟨e.2, e.1.take sizeofWritten⟩

variable (hmade : Made size tree.listing s₀ s t)

include hmade

theorem Made.entryOf_eq (hkept : Kept tree.files s) (hroot : s.Cached sfsBlknRoot)
    (hi : s.Cached i) (hdir : (s.nodes i).din.type = sfsTypeDir)
    (hle : (s.stored i).length ≤ maxBlocks) (hslot : slot < (s.written i).length) :
    entryOf (s.mounted t.disk) i slot = onDisk (s.written i)[slot] := by
  have hlists := hkept.listed hi hdir
  have hslot' : slot < (s.stored i).length := by
    rw [← hlists.length_eq]
    exact hslot
  have hblock := hmade.sound.blockAt_mounted hmade.closed hi
    (Nat.lt_of_lt_of_le hslot' hle)
  rw [List.getD_eq_getElem _ _ hslot'] at hblock
  have hmem := List.getElem_mem hslot'
  obtain ⟨-, hentry, -⟩ := hlists.get hslot hslot'
  unfold entryOf
  rw [hblock]
  show DiskEntry.ofBytes (t.disk _) = _
  rw [hmade.other _ (hmade.sound.not_flushed hroot hi hmem)]
  exact hentry

omit hmade

/-- A directory of the image is one of the tree. -/
theorem Shown.listing (h : Shown tree s) (hi : s.Cached i)
    (hdir : (s.nodes i).din.type = sfsTypeDir) :
    ∃ l : Listing, l.Named ∧ Is s i (.dir l.names)
      ∧ (tree.Mapped → l.names.length + 2 ≤ maxBlocks)
      ∧ ∀ p, tree.listing.All p → p l := by
  by_cases hroot : i = sfsBlknRoot
  · rw [hroot]
    exact ⟨_, tree.root, h.root, fun hmapped => hmapped.root, fun _ hall => hall.1⟩
  · obtain ⟨kind, hkind, his⟩ := h.kinds i hi hroot
    cases kind with
    | dir names =>
        obtain ⟨d, hd, rfl⟩ := hkind
        exact ⟨d.2, tree.named d hd, his, fun hmapped => hmapped.dirs d hd,
          fun _ hall => hall.2 d hd⟩
    | file real data => exact absurd (his.1.symm.trans hdir) file_ne_dir
    | link => exact absurd (his.1.symm.trans hdir) (by decide)

/-- A directory has a link where all its entries are mapped. -/
theorem Shown.nlinks_dir (h : Shown tree s) (hmapped : tree.Mapped)
    (hi : s.Cached i) (hdir : (s.nodes i).din.type = sfsTypeDir) :
    (s.nodes i).din.nlinks ≠ 0 := by
  obtain ⟨l, -, his, hle, -⟩ := h.listing hi hdir
  obtain ⟨k, hk, hlinks⟩ := his.2.2
  have hmax : maxBlocks < 2 ^ 16 := by decide
  have hle := hle hmapped
  rw [hlinks, Nat.mod_eq_of_lt (by omega)]
  exact Nat.succ_ne_zero _

theorem Shown.type (h : Shown tree s) (hplain : tree.Plain) (hi : s.Cached i) :
    (s.nodes i).din.type = sfsTypeDir ∨ (s.nodes i).din.type = sfsTypeFile := by
  by_cases hroot : i = sfsBlknRoot
  · rw [hroot]
    exact Or.inl h.root.1
  · obtain ⟨kind, hkind, his⟩ := h.kinds i hi hroot
    cases kind with
    | dir names => exact Or.inl his.1
    | file real data => exact Or.inr his.1
    | link => exact absurd hplain.links hkind

theorem Is.entry_name {l : Listing} {e : List UInt8 × Nat}
    (h : Is s i (.dir l.names)) (hnamed : l.Named) (he : e ∈ s.written i) :
    e.1 ≠ [] ∧ slash ∉ e.1 := by
  have hmem := List.mem_map_of_mem (f := Prod.fst) he
  rw [h.2.1, List.mem_cons, List.mem_cons] at hmem
  rcases hmem with hdot | hdotdot | hname
  · rw [hdot]
    decide
  · rw [hdotdot]
    decide
  · exact hnamed.single _ hname

/-- The directories are a tree just if there are no symbolic links, and each file
has a link where its links are counted. -/
theorem Made.tree_iff (h : Made size tree.listing s₀ s t) (hmapped : tree.Mapped)
    (hfiles : ∀ i, i ∈ files ↔ s.Cached i) :
    Tree ⟨s.mounted t.disk, files⟩ ↔ tree.Plain := by
  have hshown := h.shown
  have hsound := h.sound
  have hsmall := hshown.mapped_iff.2 hmapped
  have hinode : ∀ {i}, s.Cached i →
      inodeOf (s.mounted t.disk) i = (s.nodes i).din :=
    fun hi => hsound.inodeOf_mounted h.closed hi
  constructor
  · intro htree
    refine ⟨?_, fun f hf hzero => ?_⟩
    · by_contra hlinks
      obtain ⟨i, hi, htype, -⟩ := hshown.all .link hlinks
      have hkind := htree.type i ((hfiles i).2 hi)
      dsimp only at hkind
      rw [hinode hi, htype] at hkind
      exact absurd hkind (by decide)
    · obtain ⟨i, hi, htype, hreal, -⟩ := hshown.all (.file f.1 f.2) hf
      apply htree.linked i ((hfiles i).2 hi)
      show (inodeOf (s.mounted t.disk) i).nlinks = 0
      rw [hinode hi, hshown.links i hi htype, hreal]
      exact hzero
  · intro hplain
    have hentry : ∀ i, s.Cached i → (s.nodes i).din.type = sfsTypeDir →
        ∀ slot < (s.nodes i).din.blocks, ∃ e ∈ s.written i,
          entryOf (s.mounted t.disk) i slot = onDisk e := by
      intro i hi hdir slot hslot
      rw [(hsound.filled hi).blocks, ← (hshown.kept.listed hi hdir).length_eq]
        at hslot
      exact ⟨_, List.getElem_mem hslot, h.entryOf_eq hshown.kept hshown.cached hi
        hdir (hsmall i hi) hslot⟩
    refine ⟨fun i hi hdir slot hslot => ?_, fun i hi hdir slot hslot _ => ?_,
      fun i hi => ?_, fun i hi => ?_⟩
    · have hi' := (hfiles i).1 hi
      have hfilled := hsound.filled hi'
      have hslot' : slot < (inodeOf (s.mounted t.disk) i).blocks := hslot
      rw [hinode hi', hfilled.blocks] at hslot'
      show blockAt (s.mounted t.disk) i slot ≠ 0
      rw [hsound.blockAt_mounted h.closed hi'
        (Nat.lt_of_lt_of_le hslot' (hsmall i hi')), List.getD_eq_getElem _ _ hslot']
      exact fun heq => hfilled.pos (heq ▸ List.getElem_mem hslot')
    · have hi' := (hfiles i).1 hi
      have hdir' : (inodeOf (s.mounted t.disk) i).type = sfsTypeDir := hdir
      have hslot' : slot < (inodeOf (s.mounted t.disk) i).blocks := hslot
      rw [hinode hi'] at hdir' hslot'
      obtain ⟨e, he, heq⟩ := hentry i hi' hdir' slot hslot'
      obtain ⟨l, hnamed, his, -⟩ := hshown.listing hi' hdir'
      obtain ⟨hnonempty, hslash⟩ := his.entry_name hnamed he
      show (entryOf (s.mounted t.disk) i slot).ino ∈ files
        ∧ (entryOf (s.mounted t.disk) i slot).name ≠ []
        ∧ slash ∉ (entryOf (s.mounted t.disk) i slot).name
      rw [heq]
      refine ⟨(hfiles _).2 ?_, ?_, fun hin => hslash (List.mem_of_mem_take hin)⟩
      · exact (hshown.kept.listed hi' hdir').cached he
      · exact fun hnil => hnonempty ((List.take_eq_nil_iff.1 hnil).resolve_left
          (by decide))
    · have hi' := (hfiles i).1 hi
      show (inodeOf (s.mounted t.disk) i).nlinks ≠ 0
      rw [hinode hi']
      rcases hshown.type hplain hi' with hdir | hfile
      · exact hshown.nlinks_dir hmapped hi' hdir
      · obtain ⟨data, hin⟩ := hshown.kept.file hi' hfile
        rw [hshown.links i hi' hfile]
        exact hplain.count _ hin
    · have hi' := (hfiles i).1 hi
      show (inodeOf (s.mounted t.disk) i).type = _
        ∨ (inodeOf (s.mounted t.disk) i).type = _
      rw [hinode hi']
      exact hshown.type hplain hi'

-- ======================================================== the volume

theorem Sound.inodes_finite (h : Sound ∅ s) :
    ∃ files : Finset Nat, ∀ i, i ∈ files ↔ s.Cached i := by
  classical
  refine ⟨(Finset.range (s.ninos + sfsBlknRoot + 1)).filter s.Cached, fun i => ?_⟩
  rw [Finset.mem_filter, Finset.mem_range]
  refine and_iff_right_of_imp fun hi => ?_
  have hrange := h.cached_range hi
  have hnext := h.placed.next_le
  omega

theorem Made.consistent_iff (h : Made size tree.listing s₀ s t)
    (hfiles : ∀ i, i ∈ files ↔ s.Cached i) :
    Consistent ⟨s.mounted t.disk, files⟩ ↔ tree.Mapped := by
  rw [← h.shown.mapped_iff]
  exact h.sound.consistent_iff h.closed hfiles h.shown.cached h.shown.root.1

/-- The kernel mounts the image of a tree. The volume is consistent just if no
file and no directory has more blocks than the kernel can map; and then its
directories are a tree just if there are no symbolic links, and the names of each
file are not counted as 0. -/
theorem mounted_tree (hrun : createImg size disk info tree.listing = some t) :
    ∃ fs files, sfsDoMount { dBlocks := size / sfsBlksize
                             dBlocksize := sfsBlksize } t.disk = some (.ok fs)
      ∧ (∀ i, i ∈ files ↔ t.Cached i)
      ∧ (Consistent ⟨fs, files⟩ ↔ tree.Mapped)
      ∧ (tree.Mapped → (Tree ⟨fs, files⟩ ↔ tree.Plain)) := by
  obtain ⟨s₀, s, hmade⟩ := createImg_run hrun
  obtain ⟨files, hfiles⟩ := hmade.sound.inodes_finite
  refine ⟨s.mounted t.disk, files, hmade.mounts, fun i => ?_,
    hmade.consistent_iff hfiles, fun hmapped => hmade.tree_iff hmapped hfiles⟩
  rw [hmade.cached]
  exact hfiles i

/-- The tree with the directory and its file. -/
def smallHost : HostTree where
  listing := smallTree
  root := ⟨by decide, by decide, by decide⟩
  named d hd := by
    obtain rfl := List.mem_singleton.1 hd
    exact ⟨by decide, by decide, by decide⟩
  sameFile h h' := by
    obtain ⟨-, rfl⟩ := Prod.mk.inj (List.mem_singleton.1 h)
    obtain ⟨-, rfl⟩ := Prod.mk.inj (List.mem_singleton.1 h')
    rfl
  fileReal h := by
    obtain ⟨rfl, -⟩ := Prod.mk.inj (List.mem_singleton.1 h)
    refine ⟨by decide, by decide, fun d hd => ?_⟩
    obtain rfl := List.mem_singleton.1 hd
    decide

theorem smallHost_made : ∃ t, createImg (16 * sfsBlksize) (fun _ _ => 0)
    (fun _ => 0) smallHost.listing = some t := smallTree_made

theorem smallHost_mapped : smallHost.Mapped := by
  refine ⟨by decide, fun d hd => ?_, fun f hf => ?_⟩
  · obtain rfl := List.mem_singleton.1 hd
    decide
  · obtain rfl := List.mem_singleton.1 hf
    decide

theorem smallHost_plain : smallHost.Plain := by
  refine ⟨rfl, fun f hf => ?_⟩
  obtain rfl := List.mem_singleton.1 hf
  decide

theorem mounted_tree_small : ∃ t, createImg (16 * sfsBlksize) (fun _ _ => 0)
      (fun _ => 0) smallHost.listing = some t
    ∧ ∃ fs files, sfsDoMount { dBlocks := 16, dBlocksize := sfsBlksize } t.disk
        = some (.ok fs)
      ∧ Consistent ⟨fs, files⟩ ∧ Tree ⟨fs, files⟩ := by
  obtain ⟨t, hrun⟩ := smallHost_made
  obtain ⟨fs, files, hmount, -, hconsistent, htree⟩ := mounted_tree hrun
  exact ⟨t, hrun, fs, files, hmount, hconsistent.2 smallHost_mapped,
    (htree smallHost_mapped).2 smallHost_plain⟩

/-- The blocks of a mounted image stay accounted for in every run just if the
kernel can map the tree. Then what a run without torn calls leaves is mounted again
after `sfs_sync`, if the label on disk ends. -/
theorem image_accounted (hrun : createImg size disk info tree.listing = some t) :
    ∃ fs files, sfsDoMount { dBlocks := size / sfsBlksize
                             dBlocksize := sfsBlksize } t.disk = some (.ok fs)
      ∧ (∀ i, i ∈ files ↔ t.Cached i)
      ∧ ((∀ ops v, Run FileStep ⟨fs, files⟩ ops v → Accounted v) ↔ tree.Mapped)
      ∧ (tree.Mapped → t.super.info (Fin.last sfsMaxInfoLen) = 0 →
        ∀ ops v, Run WholeStep ⟨fs, files⟩ ops v →
          Remounts { dBlocks := size / sfsBlksize
                     dBlocksize := sfsBlksize } v) := by
  obtain ⟨s₀, s, hmade⟩ := createImg_run hrun
  obtain ⟨files, hfiles⟩ := hmade.sound.inodes_finite
  have himage := (hmade.consistent_iff hfiles).2
  refine ⟨s.mounted t.disk, files, hmade.mounts, fun i => ?_,
    ⟨fun hruns => ?_, fun hmapped ops v hcalls => ?_⟩,
    fun hmapped hlabel ops v hcalls => ?_⟩
  · rw [hmade.cached]
    exact hfiles i
  · have hstart := hruns [] _ (.nil _)
    rw [← hmade.shown.mapped_iff]
    exact fun i hi => hmade.sound.stored_le hmade.closed hfiles hmade.shown.cached
      (fun hlo hlt hbit => ((hstart.used_iff hlo hlt).1 hbit).exists) hi
  · exact (((himage hmapped).sound False).fileRun hcalls).accounted
  · rw [hmade.rest] at hlabel
    have hsuper : SfsSuper.ofBytes (t.disk sfsBlknSuper) = s.super :=
      (hmade.sound.superOnDisk hmade.closed).super
    have hagreed := hcalls.invariant (I := fun v => Agreed _ v.files v.fs)
      (fun h hstep => h.step hstep)
      (Agreed.mounted hmade.mounts (by rw [hsuper]; exact hlabel) (himage hmapped))
    exact hagreed.remounts

theorem image_accounted_small : ∃ t, createImg (16 * sfsBlksize) (fun _ _ => 0)
      (fun _ => 0) smallHost.listing = some t
    ∧ ∃ fs files, sfsDoMount { dBlocks := 16, dBlocksize := sfsBlksize } t.disk
        = some (.ok fs)
      ∧ ∀ ops v, Run FileStep ⟨fs, files⟩ ops v → Accounted v := by
  obtain ⟨t, hrun⟩ := smallHost_made
  obtain ⟨fs, files, hmount, -, haccounted, -⟩ := image_accounted hrun
  exact ⟨t, hrun, fs, files, hmount, haccounted.2 smallHost_mapped⟩

end Ucore.Mksfs
