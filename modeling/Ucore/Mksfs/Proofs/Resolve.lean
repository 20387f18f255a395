/-
Paths in an image that the kernel has mounted lead to what they lead to on the
host.

What a directory of the host has under a name is in the directory of the image
that mirrors it (`Mirrors.find`), and each directory has its parent as its second
entry: so a path is followed in both, with the directories above (`Above`).
-/
import Ucore.Mksfs.Proofs.Mounted
import Ucore.Sfs.Size
import Mathlib.Data.List.Find

namespace Ucore.Mksfs

open Sfs

variable {s s₀ t : Image} {tree : HostTree} {files : Files} {old : Nat → Prop}
  {disk : Nat → Nat → UInt8} {info : Fin (sfsMaxInfoLen + 1) → UInt8}
  {b i j k n o self size : Nat} {name : List UInt8}
  {es : List (List UInt8 × Nat)} {node : Node} {l : Listing} {up : List Listing}

-- ====================================================== what is read

/-- What the kernel can read of an inode is a node of the host. -/
def Reads (fs : SfsFs) (i : Nat) : Node → Prop
  | .dir l => (inodeOf fs i).type = sfsTypeDir
      ∧ (inodeOf fs i).blocks = l.names.length + 2
  | .file _ data => (inodeOf fs i).type = sfsTypeFile
      ∧ (inodeOf fs i).size = data.length
      ∧ ∀ (o : Nat) (ho : o < data.length), fileByte fs i o = data[o]
  | .link => (inodeOf fs i).type = sfsTypeLink

/-- A path leads to the same in the volume and on the host. -/
def Agrees (fs : SfsFs) : Except Err Nat → Except Err Node → Prop
  | .ok i, .ok node => Reads fs i node
  | .error e, .error e' => e = e'
  | _, _ => False

/-- The names of a directory are written whole. -/
def Listing.Short (l : Listing) : Prop :=
  ∀ name ∈ l.names, name.length ≤ sizeofWritten

instance (l : Listing) : Decidable l.Short :=
  inferInstanceAs (Decidable (∀ name ∈ l.names, name.length ≤ sizeofWritten))

-- ======================================================= directories

/-- An inode shows a node, in directory `self`. -/
def Shows (files : Files) (s : Image) (old : Nat → Prop) (self i : Nat) :
    Node → Prop
  | .dir l => s.Cached i ∧ (s.nodes i).din.type = sfsTypeDir ∧ ∃ below,
      s.written i = ([dot], i) :: ([dot, dot], self) :: below
        ∧ Mirrors files s old i l below
  | .file real data => s.Cached i ∧ (s.nodes i).real = real
      ∧ (real, data) ∈ files.mem
  | .link => s.Cached i ∧ (s.nodes i).din.type = sfsTypeLink

-- ============================================================= names

namespace Listing

variable {e : Listing} {p : Listing → Prop}

/-- The first entry of a listing leads to a node. -/
inductive Begins : Listing → List UInt8 → Node → Listing → Prop
  | dir {name real entries rest} (hname : hidden name ≠ true) :
      Begins (.dir name real entries rest) name (.dir entries) rest
  | file {name real data rest} (hname : hidden name ≠ true) :
      Begins (.file name real data rest) name (.file real data) rest
  | link {name real target rest} (hname : hidden name ≠ true) :
      Begins (.link name real target rest) name .link rest

/-- Induction over the entries of a listing that lead to a node. -/
theorem entries_rec {P : Listing → Prop} (done : P .done)
    (hides : ∀ l rest, Hides l rest → P rest → P l)
    (begins : ∀ l n node rest, Begins l n node rest → P rest → P l)
    (l : Listing) : P l := by
  induction l using shown_rec with
  | done => exact done
  | hides l rest hhides ihrest => exact hides l rest hhides ihrest
  | dir n real entries rest hn _ ihrest => exact begins _ _ _ _ (.dir hn) ihrest
  | file n real data rest hn ihrest => exact begins _ _ _ _ (.file hn) ihrest
  | link n real target rest hn ihrest => exact begins _ _ _ _ (.link hn) ihrest

namespace Begins

variable {rest : Listing} {n : List UInt8} (h : Begins l n node rest)

include h

theorem visible : hidden n ≠ true := by
  cases h with
  | dir hn => exact hn
  | file hn => exact hn
  | link hn => exact hn

theorem names : l.names = n :: rest.names := by
  cases h with
  | dir hn => exact if_neg hn
  | file hn => exact if_neg hn
  | link hn => exact if_neg hn

theorem find (name : List UInt8) :
    l.find name = if n = name then some node else rest.find name := by
  have hvisible : (n = name ∧ hidden n ≠ true) = (n = name) :=
    propext (and_iff_left h.visible)
  cases h with
  | dir hn => simp only [Listing.find, hvisible]
  | file hn => simp only [Listing.find, hvisible]
  | link hn => simp only [Listing.find, hvisible]

theorem dirs_subset : rest.dirs ⊆ l.dirs := by
  cases h with
  | dir hn =>
      rw [dirs, if_neg hn]
      exact List.subset_cons_of_subset _ (List.subset_append_right ..)
  | file hn => exact fun _ hd => hd
  | link hn => exact fun _ hd => hd

end Begins

/-- What is found is below. -/
theorem find_dir (h : l.find name = some (.dir e)) :
    (∃ real, (real, e) ∈ l.dirs) ∧ e.dirs ⊆ l.dirs := by
  induction l using entries_rec with
  | done => cases h
  | hides l rest hhides ihrest =>
      rw [hhides.find] at h
      rw [hhides.dirs]
      exact ihrest h
  | begins l n node rest hl ihrest =>
      rw [hl.find] at h
      split at h
      case isTrue =>
          obtain rfl := Option.some.inj h
          cases hl with
          | dir hn =>
              rw [dirs, if_neg hn]
              exact ⟨⟨_, List.mem_cons_self ..⟩,
                List.subset_cons_of_subset _ (List.subset_append_left ..)⟩
      case isFalse =>
          obtain ⟨⟨r, hr⟩, hsub⟩ := ihrest h
          exact ⟨⟨r, hl.dirs_subset hr⟩, fun d hd => hl.dirs_subset (hsub hd)⟩

theorem All.find (h : l.All p) (hfind : l.find name = some (.dir e)) :
    e.All p := by
  obtain ⟨⟨real, hr⟩, hsub⟩ := find_dir hfind
  exact ⟨h.2 _ hr, fun d hd => h.2 d (hsub hd)⟩

namespace Begins

variable {rest : Listing} {n : List UInt8} {node' : Node}

end Begins

theorem names_visible (h : name ∈ l.names) : hidden name ≠ true := by
  induction l using entries_rec with
  | done => cases h
  | hides l rest hhides ihrest => exact ihrest (hhides.names ▸ h)
  | begins l n node rest hl ihrest =>
      rw [hl.names] at h
      rcases List.mem_cons.1 h with rfl | h
      · exact hl.visible
      · exact ihrest h

end Listing

/-- The first of the entries shows the node that the listing begins with. -/
theorem Listing.Begins.mirrors {rest : Listing} (hl : Begins l name node rest)
    (h : Mirrors files s old self l es) : ∃ i es', es = (name, i) :: es'
      ∧ Shows files s old self i node ∧ Mirrors files s old self rest es' := by
  cases hl with
  | dir hname =>
      rw [Mirrors, if_neg hname] at h
      obtain ⟨i, below, es', hes, hi, -, htype, hwritten, hentries, hrest⟩ := h
      exact ⟨i, es', hes, ⟨hi, htype, below, hwritten, hentries⟩, hrest⟩
  | file hname =>
      rw [Mirrors, if_neg hname] at h
      obtain ⟨i, es', hes, hi, hreal, hin, hrest⟩ := h
      exact ⟨i, es', hes, ⟨hi, hreal, hin⟩, hrest⟩
  | link hname =>
      rw [Mirrors, if_neg hname] at h
      obtain ⟨i, es', hes, hi, htype, hrest⟩ := h
      exact ⟨i, es', hes, ⟨hi, htype⟩, hrest⟩

theorem Mirrors.names (h : Mirrors files s old self l es) :
    es.map Prod.fst = l.names := by
  induction l using Listing.entries_rec generalizing es with
  | done =>
      rw [Mirrors] at h
      rw [h]
      rfl
  | hides l rest hhides ihrest =>
      rw [hhides.mirrors] at h
      rw [hhides.names]
      exact ihrest h
  | begins l n node rest hl ihrest =>
      obtain ⟨i, es', rfl, -, hrest⟩ := hl.mirrors h
      rw [hl.names, List.map_cons, ihrest hrest]

/-- What is found under a name in the entries shows what is found on the host. -/
theorem Mirrors.find (h : Mirrors files s old self l es) (name : List UInt8) :
    Option.Rel (fun e node => Shows files s old self e.2 node)
      (es.find? fun e => name = e.1) (l.find name) := by
  induction l using Listing.entries_rec generalizing es with
  | done =>
      rw [Mirrors] at h
      rw [h]
      exact Option.Rel.none
  | hides l rest hhides ihrest =>
      rw [hhides.mirrors] at h
      rw [hhides.find]
      exact ihrest h
  | begins l n node rest hl ihrest =>
      obtain ⟨i, es', rfl, hshows, hrest⟩ := hl.mirrors h
      rw [hl.find]
      by_cases heq : n = name
      · rw [if_pos heq, List.find?_cons_of_pos (by simp [heq])]
        exact Option.Rel.some hshows
      · rw [if_neg heq, List.find?_cons_of_neg (by simpa using Ne.symm heq)]
        exact ihrest hrest

-- ======================================================== the volume

/-- What the volume holds of a tree that the kernel can map. -/
structure Held (tree : HostTree) (s : Image) (fs : SfsFs) : Prop where
  shown : Shown tree s
  inode : ∀ {i}, s.Cached i → inodeOf fs i = (s.nodes i).din
  blocks : ∀ {i}, s.Cached i → (s.nodes i).din.blocks = (s.stored i).length
  small : ∀ {i}, s.Cached i → (s.stored i).length ≤ maxBlocks
  block : ∀ {i k}, s.Cached i → (hk : k < (s.stored i).length) →
    fs.disk (blockAt fs i k) = s.disk (s.stored i)[k]
  pos : ∀ {i}, s.Cached i → i ≠ 0

theorem Made.held (h : Made size tree.listing s₀ s t) (hmapped : tree.Mapped) :
    Held tree s (s.mounted t.disk) := by
  have hshown := h.shown
  have hsound := h.sound
  refine ⟨hshown, fun hi => hsound.inodeOf_mounted h.closed hi,
    fun hi => (hsound.filled hi).blocks,
    fun hi => hshown.mapped_iff.2 hmapped _ hi, fun {i k} hi hk => ?_,
    fun hi => hsound.pos hi⟩
  rw [hsound.blockAt_mounted h.closed hi
    (Nat.lt_of_lt_of_le hk (hshown.mapped_iff.2 hmapped _ hi)),
    List.getD_eq_getElem _ _ hk]
  exact h.other _ (hsound.not_flushed hshown.cached hi (List.getElem_mem hk))

namespace Held

variable {fs : SfsFs} (h : Held tree s fs)

include h

/-- The entries of a directory, as the kernel reads them. -/
theorem entries (hi : s.Cached i) (hdir : (s.nodes i).din.type = sfsTypeDir) :
    (List.range (inodeOf fs i).blocks).map (entryOf fs i)
      = (s.written i).map onDisk := by
  have hlists := h.shown.kept.listed hi hdir
  rw [h.inode hi, h.blocks hi, ← hlists.length_eq]
  apply List.ext_getElem
  · rw [List.length_map, List.length_map, List.length_range]
  · intro k hk _
    rw [List.length_map, List.length_range] at hk
    have hk' : k < (s.stored i).length := hlists.length_eq ▸ hk
    rw [List.getElem_map, List.getElem_map, List.getElem_range]
    unfold entryOf
    rw [h.block hi hk']
    exact (hlists.get hk hk').2.1

/-- A name is looked up among the names that were written. -/
theorem lookupName_eq (hi : s.Cached i)
    (hdir : (s.nodes i).din.type = sfsTypeDir) : lookupName fs i name
      = ((s.written i).find? fun e => name = e.1.take sizeofWritten).map
        Prod.snd := by
  have hread : ((List.range (inodeOf fs i).blocks).map (entryOf fs i)).find?
      (fun e : DiskEntry => e.ino ≠ 0 ∧ name = e.name) = _ :=
    congrArg _ (h.entries hi hdir)
  rw [List.find?_map, List.find?_map] at hread
  have hino := congrArg (Option.map DiskEntry.ino) hread
  rw [Option.map_map, Option.map_map] at hino
  unfold lookupName
  refine hino.trans (congrArg _ ?_)
  apply List.find?_congr
  intro e he
  have hpos := h.pos ((h.shown.kept.listed hi hdir).cached he)
  show decide (e.2 ≠ 0 ∧ name = e.1.take sizeofWritten) = _
  rw [Bool.eq_iff_iff, decide_eq_true_iff, decide_eq_true_iff,
    and_iff_right hpos]

/-- A name in a directory that has only short names. -/
theorem lookupName_short {below : List (List UInt8 × Nat)} (hi : s.Cached i)
    (hdir : (s.nodes i).din.type = sfsTypeDir)
    (hwritten : s.written i = ([dot], i) :: ([dot, dot], self) :: below)
    (hshort : ∀ name ∈ below.map Prod.fst, name.length ≤ sizeofWritten) :
    lookupName fs i name = if name = [dot] then some i
      else if name = [dot, dot] then some self
      else (below.find? fun e => name = e.1).map Prod.snd := by
  rw [h.lookupName_eq hi hdir, hwritten]
  have hdot : [dot].take sizeofWritten = [dot] := rfl
  have hdotdot : [dot, dot].take sizeofWritten = [dot, dot] := rfl
  by_cases hname : name = [dot]
  · rw [if_pos hname, List.find?_cons_of_pos (by simp [hdot, hname])]
    rfl
  · rw [if_neg hname, List.find?_cons_of_neg (by simpa [hdot] using hname)]
    by_cases hname' : name = [dot, dot]
    · rw [if_pos hname', List.find?_cons_of_pos (by simp [hdotdot, hname'])]
      rfl
    · rw [if_neg hname', List.find?_cons_of_neg (by simpa [hdotdot] using hname')]
      refine congrArg _ (List.find?_congr fun e he => ?_)
      rw [List.take_of_length_le (hshort _ (List.mem_map_of_mem he))]

/-- The bytes of a file. -/
theorem fileByte_eq {real : Nat} {data : List UInt8} (hi : s.Cached i)
    (his : Is s i (.file real data)) (ho : o < data.length) :
    fileByte fs i o = data[o] := by
  obtain ⟨-, -, -, hholds⟩ := his
  have hmod : o % sfsBlksize < sfsBlksize := Nat.mod_lt _ (by decide)
  have hdiv : o / sfsBlksize < roundupDiv data.length sfsBlksize := by
    unfold roundupDiv sfsBlksize
    omega
  have hlen := hholds.length_eq
  rw [List.length_range] at hlen
  have hk : o / sfsBlksize < (s.stored i).length := hlen ▸ hdiv
  obtain ⟨hblock, -⟩ := hholds.get (by rw [List.length_range]; exact hdiv) hk
  rw [List.get_eq_getElem, List.get_eq_getElem, List.getElem_range] at hblock
  unfold fileByte
  rw [h.block hi hk]
  refine (congrFun hblock _).trans ?_
  unfold fileBlock
  have hsum : o / sfsBlksize * sfsBlksize + o % sfsBlksize = o :=
    Nat.div_add_mod' ..
  rw [List.getD_eq_getElem?_getD, List.getElem?_take_of_lt hmod,
    List.getElem?_drop, hsum, List.getElem?_eq_getElem ho]
  rfl

theorem reads (hshows : Shows tree.files s old self i node) : Reads fs i node := by
  cases node with
  | dir l =>
      obtain ⟨hi, hdir, below, hwritten, hmirrors⟩ := hshows
      have hlists := h.shown.kept.listed hi hdir
      have hnames := congrArg List.length hmirrors.names
      rw [List.length_map] at hnames
      refine ⟨by rw [h.inode hi]; exact hdir, ?_⟩
      rw [h.inode hi, h.blocks hi, ← hlists.length_eq, hwritten, ← hnames]
      rfl
  | file real data =>
      obtain ⟨hi, hreal, hin⟩ := hshows
      rw [← hreal] at hin
      have his := h.shown.kept.known hi hin
      refine ⟨by rw [h.inode hi]; exact his.1, ?_,
        fun o ho => h.fileByte_eq hi his ho⟩
      have hle := h.small hi
      rw [his.stored h.shown.kept hi] at hle
      have hlt : data.length < 2 ^ 32 := by
        unfold Kind.blocks roundupDiv maxBlocks sfsBlksize sfsNdirect sfsBlkNentry
          sfsBlksize at hle
        dsimp only at hle
        omega
      rw [h.inode hi, his.2.2.1, Nat.mod_eq_of_lt hlt]
  | link =>
      obtain ⟨hi, htype⟩ := hshows
      show (inodeOf fs i).type = sfsTypeLink
      rw [h.inode hi]
      exact htype

end Held

-- ============================================================= paths

/-- Directory `i` shows a listing, below directories that show those above it. -/
def Above (files : Files) (s : Image) (old : Nat → Prop) :
    List Listing → Listing → Nat → Prop
  | [], l, i => Shows files s old i i (.dir l)
  | l' :: up, l, i => ∃ p, Above files s old up l' p
      ∧ Shows files s old p i (.dir l)

/-- Inode `i` shows a node below these directories. -/
def Leads (files : Files) (s : Image) (old : Nat → Prop) (up : List Listing)
    (i : Nat) : Node → Prop
  | .dir l => Above files s old up l i
  | .file real data => ∃ self, Shows files s old self i (.file real data)
  | .link => ∃ self, Shows files s old self i .link

theorem Above.shows (h : Above files s old up l i) :
    ∃ self, Shows files s old self i (.dir l) := by
  cases up with
  | nil => exact ⟨i, h⟩
  | cons l' up =>
      obtain ⟨p, -, hshows⟩ := h
      exact ⟨p, hshows⟩

theorem Leads.shows (h : Leads files s old up i node) :
    ∃ self, Shows files s old self i node := by
  cases node with
  | dir l => exact Above.shows h
  | file real data => exact h
  | link => exact h

/-- One name more leads below. -/
theorem Above.leads (h : Above files s old up l i)
    (hshows : Shows files s old i j node) : Leads files s old (l :: up) j node := by
  cases node with
  | dir l' => exact ⟨i, h, hshows⟩
  | file real data => exact ⟨i, hshows⟩
  | link => exact ⟨i, hshows⟩

/-- The second entry of a directory leads to the one above. -/
theorem Above.parent (h : Above files s old up l i) : ∃ self below,
    s.written i = ([dot], i) :: ([dot, dot], self) :: below
      ∧ Mirrors files s old i l below
      ∧ Above files s old up.tail (up.headD l) self := by
  cases up with
  | nil =>
      obtain ⟨hi, hdir, below, hwritten, hmirrors⟩ := h
      exact ⟨i, below, hwritten, hmirrors, hi, hdir, below, hwritten, hmirrors⟩
  | cons l' up =>
      obtain ⟨p, habove, hi, hdir, below, hwritten, hmirrors⟩ := h
      exact ⟨p, below, hwritten, hmirrors, habove⟩

/-- In a tree with short names each path leads to what it leads to on the host. -/
theorem Held.agrees {fs : SfsFs} (h : Held tree s fs)
    (hleads : Leads tree.files s old up i node)
    (hup : ∀ l ∈ up, l.All Listing.Short)
    (hnode : ∀ l, node = .dir l → l.All Listing.Short) (path : List (List UInt8)) :
    Agrees fs (resolve fs i path) (walk up node path) := by
  induction path generalizing up node i with
  | nil =>
      obtain ⟨self, hshows⟩ := hleads.shows
      rw [resolve, walk]
      exact h.reads hshows
  | cons name names ih =>
      obtain ⟨self, hshows⟩ := hleads.shows
      have hreads := h.reads hshows
      cases node with
      | file real data =>
          have hfile : (inodeOf fs i).type ≠ sfsTypeDir := by
            rw [hreads.1]
            exact file_ne_dir
          rw [resolve, walk, if_pos hfile]
          rfl
      | link =>
          have hlink : (inodeOf fs i).type ≠ sfsTypeDir := by
            rw [show (inodeOf fs i).type = sfsTypeLink from hreads]
            decide
          rw [resolve, walk, if_pos hlink]
          rfl
      | dir l =>
          have hall := hnode l rfl
          obtain ⟨hi, hdir, -⟩ := hshows
          obtain ⟨parent, below, hwritten, hmirrors, hparent⟩ :=
            Above.parent hleads
          have hshort : ∀ n ∈ below.map Prod.fst, n.length ≤ sizeofWritten := by
            rw [hmirrors.names]
            exact hall.1
          rw [resolve, walk, if_neg (not_not_intro hreads.1),
            h.lookupName_short hi hdir hwritten hshort]
          by_cases hdot : name = [dot]
          · rw [if_pos hdot, if_pos hdot]
            exact ih hleads hup hnode
          · rw [if_neg hdot, if_neg hdot]
            by_cases hdotdot : name = [dot, dot]
            · rw [if_pos hdotdot, if_pos hdotdot]
              have hleads' : Leads tree.files s old up.tail parent
                (.dir (up.headD l)) := hparent
              refine ih hleads' (fun l' hl' => hup l' (List.mem_of_mem_tail hl'))
                fun l' hl' => ?_
              obtain rfl := Node.dir.inj hl'
              cases up with
              | nil => exact hall
              | cons l₁ up => exact hup l₁ (List.mem_cons_self ..)
            · rw [if_neg hdotdot, if_neg hdotdot]
              have hfind := hmirrors.find name
              cases hfind' : l.find name with
              | none =>
                  rw [hfind'] at hfind
                  cases hfind'' : below.find? fun e => name = e.1 with
                  | none => rfl
                  | some e =>
                      rw [hfind''] at hfind
                      cases hfind
              | some node =>
                  rw [hfind'] at hfind
                  cases hfind'' : below.find? fun e => name = e.1 with
                  | none =>
                      rw [hfind''] at hfind
                      cases hfind
                  | some e =>
                      rw [hfind''] at hfind
                      cases hfind with
                      | some hshows =>
                          refine ih (Above.leads hleads hshows) ?_ ?_
                          · intro l' hl'
                            rcases List.mem_cons.1 hl' with rfl | hl'
                            · exact hall
                            · exact hup l' hl'
                          · rintro l' rfl
                            exact hall.find hfind'

theorem smallHost_short : smallHost.listing.All Listing.Short := by
  refine ⟨by decide, fun d hd => ?_⟩
  obtain rfl := List.mem_singleton.1 hd
  decide

end Ucore.Mksfs
