/-
What mksfs makes of a directory tree: for each directory, each file and each
link an inode, with its entries, its contents and its links.

A regular file is known by its `st_ino`, and gets its inode with the first of
its names (`Kept`). A directory may only be met once.
-/
import Ucore.Mksfs.Proofs.Walk

namespace Ucore.Mksfs

open Sfs

variable {s t u : Image} {held : Finset Nat} {b c i j k n r file size real : Nat}
  {current parent : Nat} {name : List UInt8} {data : List UInt8}

-- =========================================================== entries

theorem cString_eq {bytes name : List UInt8} (hname : 0 ∉ name)
    (hpre : name ++ [0] <+: bytes) : cString bytes = name := by
  obtain ⟨rest, rfl⟩ := hpre
  have hall : ∀ a ∈ name, decide (a ≠ 0) = true := by
    intro a ha
    rw [decide_eq_true_eq]
    rintro rfl
    exact hname ha
  unfold cString
  rw [List.append_assoc, List.takeWhile_append_of_pos hall,
    List.singleton_append, List.takeWhile_cons_of_neg (by decide),
    List.append_nil]

/-- What `add_entry` writes is `sizeof(entry->name)` bytes of the entry, so of a
name the first 252. -/
def sizeofWritten : Nat := sizeofName - 4

/-- The bytes of an entry read back, but for the end of a long name. -/
theorem ofBytes_entryBytes {old : Nat → UInt8} (hfile : file < 256 ^ 4)
    (hname : 0 ∉ name) :
    DiskEntry.ofBytes (fun k => if k < sizeofName
      then entryBytes file (copyName old name) k else 0)
      = ⟨file, name.take sizeofWritten⟩ := by
  have hsize : sizeofName = 256 := rfl
  have hwritten : sizeofWritten = 252 := rfl
  have hmax : sfsMaxFnameLen = 255 := rfl
  unfold DiskEntry.ofBytes
  rw [DiskEntry.mk.injEq]
  constructor
  · apply getWord_wordByte hfile
    intro k hk
    rw [if_pos (by omega), Nat.zero_add]
    exact if_pos hk
  · apply cString_eq
    · exact fun h => hname (List.mem_of_mem_take h)
    · rw [List.prefix_iff_eq_take]
      apply List.ext_getElem
      · rw [List.length_append, List.length_take, List.length_take,
          List.length_map, List.length_range, List.length_singleton]
        omega
      · intro k hk hk'
        rw [List.getElem_take, List.getElem_map, List.getElem_range]
        rw [List.length_append, List.length_take, List.length_singleton] at hk
        by_cases hlt : k < (name.take sizeofWritten).length
        · rw [List.getElem_append_left hlt, List.getElem_take]
          rw [List.length_take] at hlt
          unfold entryBytes copyName
          beta_reduce
          rw [if_pos (by omega), if_neg (by omega), dif_pos (by omega)]
          simp only [Nat.add_sub_cancel_left]
        · rw [List.getElem_append_right (Nat.not_lt.1 hlt), List.getElem_singleton]
          rw [List.length_take] at hlt
          unfold entryBytes copyName
          beta_reduce
          split
          case isFalse => rfl
          case isTrue =>
              rw [if_neg (by omega), Nat.add_sub_cancel_left, dif_neg (by omega),
                if_pos (by omega)]

-- ======================================================== the inodes

/-- What an inode can be of. -/
inductive Kind where
  | dir (names : List (List UInt8))
  | file (real : Nat) (data : List UInt8)
  | link

/-- A listing leads to something of this kind. -/
def Listing.Makes (l : Listing) : Kind → Prop
  | .dir names => ∃ d ∈ l.dirs, d.2.names = names
  | .file real data => (real, data) ∈ l.files
  | .link => l.links ≠ []

/-- The blocks of a file hold its contents. -/
def Holds (s : Image) (data : List UInt8) (bs : List Nat) : Prop :=
  List.Forall₂ (fun k b => s.disk b = fileBlock data k ∧ b < s.nextIno)
    (List.range (roundupDiv data.length sfsBlksize)) bs

/-- The blocks of a directory hold its entries. -/
def Lists (s : Image) (es : List (List UInt8 × Nat)) (bs : List Nat) : Prop :=
  List.Forall₂ (fun e b => b < s.nextIno
    ∧ DiskEntry.ofBytes (s.disk b) = ⟨e.2, e.1.take sizeofWritten⟩
    ∧ e.1.length ≤ sfsMaxFnameLen ∧ s.Cached e.2) es bs

/-- An inode is of a kind. -/
def Is (s : Image) (i : Nat) : Kind → Prop
  | .dir names => (s.nodes i).din.type = sfsTypeDir
      ∧ (s.written i).map Prod.fst = [dot] :: [dot, dot] :: names
      ∧ ∃ k ≤ names.length, (s.nodes i).din.nlinks = (k + 2) % 2 ^ 16
  | .file real data => (s.nodes i).din.type = sfsTypeFile
      ∧ (s.nodes i).real = real ∧ (s.nodes i).din.size = data.length % 2 ^ 32
      ∧ Holds s data (s.stored i)
  | .link => (s.nodes i).din.type = sfsTypeLink ∧ (s.stored i).length = 1

theorem Holds.evolves {bs : List Nat} (h : Holds s data bs)
    (hev : Evolves c s t) : Holds t data bs := by
  refine h.imp fun k b hb => ?_
  rw [hev.disk b hb.2]
  exact ⟨hb.1, Nat.lt_of_lt_of_le hb.2 hev.next_le⟩

theorem Lists.evolves {es : List (List UInt8 × Nat)} {bs : List Nat}
    (h : Lists s es bs) (hev : Evolves c s t) : Lists t es bs := by
  refine h.imp fun e b hb => ?_
  rw [hev.disk b hb.1]
  exact ⟨Nat.lt_of_lt_of_le hb.1 hev.next_le, hb.2.1, hb.2.2.1,
    hev.cached _ hb.2.2.2⟩

theorem Lists.cached {es : List (List UInt8 × Nat)} {bs : List Nat}
    {e : List UInt8 × Nat} (h : Lists s es bs) (he : e ∈ es) : s.Cached e.2 := by
  obtain ⟨k, hk, rfl⟩ := List.mem_iff_getElem.1 he
  exact (h.get hk (h.length_eq ▸ hk)).2.2.2

/-- An inode stays what it is while another one is worked on. -/
theorem Is.evolves {kind : Kind} (h : Is s i kind) (hev : Evolves c s t)
    (hi : s.Cached i) (hne : i ≠ c)
    (hlinks : (s.nodes i).din.type = sfsTypeDir →
      (t.nodes i).din.nlinks = (s.nodes i).din.nlinks) : Is t i kind := by
  cases kind with
  | dir names =>
      obtain ⟨htype, hnames, hcount⟩ := h
      refine ⟨(hev.type i hi).trans htype, ?_, ?_⟩
      · rw [hev.written i hi hne]
        exact hnames
      · rw [hlinks htype]
        exact hcount
  | file real data =>
      obtain ⟨htype, hreal, hsize, hholds⟩ := h
      refine ⟨(hev.type i hi).trans htype, (hev.real i hi).trans hreal,
        (hev.size i hi hne).trans hsize, ?_⟩
      rw [hev.stored i hi hne]
      exact hholds.evolves hev
  | link =>
      obtain ⟨htype, hone⟩ := h
      refine ⟨(hev.type i hi).trans htype, ?_⟩
      rw [hev.stored i hi hne]
      exact hone

-- ====================================================== what is kept

/-- The regular files of a host. -/
structure Files where
  mem : List (Nat × List UInt8)
  same : ∀ {real data data'}, (real, data) ∈ mem → (real, data') ∈ mem →
    data' = data

/-- Each regular file that was met has one inode, which holds it, and each
directory lists its entries. -/
structure Kept (files : Files) (s : Image) : Prop where
  known : ∀ {i data}, s.Cached i → ((s.nodes i).real, data) ∈ files.mem →
    Is s i (.file (s.nodes i).real data)
  file : ∀ {i}, s.Cached i → (s.nodes i).din.type = sfsTypeFile →
    ∃ data, ((s.nodes i).real, data) ∈ files.mem
  unique : ∀ {i j data}, s.Cached i → s.Cached j →
    ((s.nodes i).real, data) ∈ files.mem →
    (s.nodes j).real = (s.nodes i).real → j = i
  listed : ∀ {i}, s.Cached i → (s.nodes i).din.type = sfsTypeDir →
    Lists s (s.written i) (s.stored i)

variable {files : Files}

theorem file_ne_dir : sfsTypeFile ≠ sfsTypeDir := by decide

namespace Kept

/-- A directory gets an entry. -/
theorem enter (h : Kept files s) (hsound : Sound held s)
    (hcurrent : s.Cached current) (hfile : s.Cached file) (hname : 0 ∉ name)
    (henter : Entered current file name s t) : Kept files t := by
  have hev := henter.evolves
  have hcached : t.Cached = s.Cached := cached_congr henter.inodes
  have hdirent : Lists t (t.written current) (t.stored current) := by
    rw [henter.written, henter.stored, Function.update_self,
      Function.update_self]
    refine List.rel_append ((h.listed hcurrent henter.dir).evolves hev)
      (List.Forall₂.cons ⟨henter.next_lt, ?_, henter.length, ?_⟩
        List.Forall₂.nil)
    · rw [henter.block]
      exact ofBytes_entryBytes (hsound.cached_lt hfile) hname
    · exact hev.cached _ hfile
  refine ⟨fun {i data} hi hin => ?_, fun {i} hi htype => ?_,
    fun {i j data} hi hj hin heq => ?_, fun {i} hi htype => ?_⟩
  · rw [hcached] at hi
    rw [henter.real] at hin ⊢
    have his := h.known hi hin
    have hne : i ≠ current := by
      rintro rfl
      exact file_ne_dir (his.1.symm.trans henter.dir)
    exact his.evolves hev hi hne fun hdir =>
      absurd (his.1.symm.trans hdir) file_ne_dir
  · rw [hcached] at hi
    rw [henter.type] at htype
    rw [henter.real]
    exact h.file hi htype
  · rw [hcached] at hi hj
    rw [henter.real] at hin heq
    rw [henter.real] at heq
    exact h.unique hi hj hin heq
  · rw [hcached] at hi
    by_cases hic : i = current
    · rw [hic]
      exact hdirent
    · rw [henter.type] at htype
      rw [hev.stored i hi hic, hev.written i hi hic]
      exact (h.listed hi htype).evolves hev

/-- An inode is new. -/
theorem new (h : Kept files s) (hev : Evolves n s t) (hnew : ¬ s.Cached n)
    (hcached : ∀ j, t.Cached j ↔ s.Cached j ∨ j = n)
    (hlinks : ∀ j, j ≠ n → (t.nodes j).din.nlinks = (s.nodes j).din.nlinks)
    (hknown : ∀ {data}, ((t.nodes n).real, data) ∈ files.mem →
      Is t n (.file (t.nodes n).real data))
    (hfile : (t.nodes n).din.type = sfsTypeFile →
      ∃ data, ((t.nodes n).real, data) ∈ files.mem)
    (hunique : ∀ {data}, ((t.nodes n).real, data) ∈ files.mem →
      ∀ j, s.Cached j → (s.nodes j).real ≠ (t.nodes n).real)
    (hlisted : (t.nodes n).din.type = sfsTypeDir →
      Lists t (t.written n) (t.stored n)) : Kept files t := by
  have hne : ∀ {j}, s.Cached j → j ≠ n := fun hj heq => hnew (heq ▸ hj)
  refine ⟨fun {i data} hi hin => ?_, fun {i} hi htype => ?_,
    fun {i j data} hi hj hin heq => ?_, fun {i} hi htype => ?_⟩
  · rcases (hcached i).1 hi with hi | rfl
    · rw [hev.real i hi] at hin ⊢
      exact (h.known hi hin).evolves hev hi (hne hi) fun _ => hlinks i (hne hi)
    · exact hknown hin
  · rcases (hcached i).1 hi with hi | rfl
    · rw [hev.type i hi] at htype
      rw [hev.real i hi]
      exact h.file hi htype
    · exact hfile htype
  · rcases (hcached i).1 hi with hi | hi
    · rcases (hcached j).1 hj with hj | hj
      · rw [hev.real i hi] at hin heq
        rw [hev.real j hj] at heq
        exact h.unique hi hj hin heq
      · rw [hj] at heq
        rw [← heq] at hin
        exact absurd (hev.real i hi ▸ heq.symm) (hunique hin i hi)
    · rcases (hcached j).1 hj with hj | hj
      · rw [hi] at hin heq
        exact absurd (hev.real j hj ▸ heq) (hunique hin j hj)
      · rw [hi, hj]
  · rcases (hcached i).1 hi with hi | rfl
    · rw [hev.type i hi] at htype
      rw [hev.stored i hi (hne hi), hev.written i hi (hne hi)]
      exact (h.listed hi htype).evolves hev
    · exact hlisted htype

end Kept

-- ============================================= what was gone through

/-- Entries of a directory were gone through: those with these names were
entered, for inodes of these kinds, and of these regular files. -/
structure Walked (files : Files) (current : Nat) (kinds : Kind → Prop)
    (names : List (List UInt8)) (reals : List Nat) (s t : Image) : Prop where
  kept : Kept files t
  evolves : Evolves current s t
  new : ∀ i, t.Cached i → ¬ s.Cached i → ∃ kind, kinds kind ∧ Is t i kind
  all : ∀ kind, kinds kind → ∃ i, t.Cached i ∧ Is t i kind
    ∧ (s.Cached i → (t.nodes i).din.type = sfsTypeFile)
  entries : ∃ es, t.written current = s.written current ++ es
    ∧ es.map Prod.fst = names
  met : ∀ r ∈ reals, ∃ i data, t.Cached i ∧ (t.nodes i).real = r
    ∧ (r, data) ∈ files.mem
  fileLinks : ∀ i, t.Cached i → (t.nodes i).din.type = sfsTypeFile →
    (t.nodes i).din.nlinks
      = ((s.nodes i).din.nlinks + reals.count (t.nodes i).real) % 2 ^ 16
  dirLinks : ∀ i, s.Cached i → (s.nodes i).din.type = sfsTypeDir →
    i ≠ current → (t.nodes i).din.nlinks = (s.nodes i).din.nlinks
  currentLinks : ∃ k ≤ names.length, (t.nodes current).din.nlinks
    = ((s.nodes current).din.nlinks + k) % 2 ^ 16

namespace Walked

variable {kinds kinds' : Kind → Prop} {names names' : List (List UInt8)}
  {reals reals' : List Nat}

theorem refl (hkept : Kept files s) (hsound : Sound held s) :
    Walked files current (fun _ => False) [] [] s s := by
  have hlt := hsound.nlinks_lt
  refine ⟨hkept, Evolves.refl current s, fun i hi hnew => absurd hi hnew,
    fun kind h => h.elim, ⟨[], (List.append_nil _).symm, rfl⟩,
    (fun r hr => by cases hr), fun i _ _ => ?_, fun i _ _ _ => rfl,
    ⟨0, Nat.le_refl _, ?_⟩⟩
  · exact (Nat.mod_eq_of_lt (hlt i)).symm
  · exact (Nat.mod_eq_of_lt (hlt current)).symm

theorem mono (h : Walked files current kinds names reals s t)
    (hkinds : ∀ kind, kinds' kind ↔ kinds kind) :
    Walked files current kinds' names reals s t where
  kept := h.kept
  evolves := h.evolves
  new i hi hnew := by
    obtain ⟨kind, hkind, his⟩ := h.new i hi hnew
    exact ⟨kind, (hkinds kind).2 hkind, his⟩
  all kind hkind := h.all kind ((hkinds kind).1 hkind)
  entries := h.entries
  met := h.met
  fileLinks := h.fileLinks
  dirLinks := h.dirLinks
  currentLinks := h.currentLinks

/-- One part of a directory after the other. -/
theorem trans (h : Walked files current kinds names reals s t)
    (h' : Walked files current kinds' names' reals' t u) (hsound : Sound held s)
    (hsound' : Sound held t) (hcurrent : s.Cached current)
    (hdir : (s.nodes current).din.type = sfsTypeDir) :
    Walked files current (fun kind => kinds kind ∨ kinds' kind)
      (names ++ names') (reals ++ reals') s u := by
  have hcached := h.evolves.cached
  have hdir' : (t.nodes current).din.type = sfsTypeDir :=
    (h.evolves.type current hcurrent).trans hdir
  have hkeep : ∀ {i kind}, t.Cached i → i ≠ current → Is t i kind →
      Is u i kind := fun hi hne his =>
    his.evolves h'.evolves hi hne fun htype => h'.dirLinks _ hi htype hne
  refine ⟨h'.kept, h.evolves.trans h'.evolves, fun i hi hnew => ?_,
    fun kind hkind => ?_, ?_, fun r hr => ?_, fun i hi htype => ?_,
    fun i hi htype hne => ?_, ?_⟩
  · by_cases hit : t.Cached i
    · obtain ⟨kind, hkind, his⟩ := h.new i hit hnew
      have hne : i ≠ current := fun heq => hnew (heq ▸ hcurrent)
      exact ⟨kind, Or.inl hkind, hkeep hit hne his⟩
    · obtain ⟨kind, hkind, his⟩ := h'.new i hi hit
      exact ⟨kind, Or.inr hkind, his⟩
  · rcases hkind with hkind | hkind
    · obtain ⟨i, hi, his, hold⟩ := h.all kind hkind
      have hne : i ≠ current := by
        rintro rfl
        exact file_ne_dir ((hold hcurrent).symm.trans hdir')
      refine ⟨i, h'.evolves.cached i hi, hkeep hi hne his, fun hin => ?_⟩
      rw [h'.evolves.type i hi]
      exact hold hin
    · obtain ⟨i, hi, his, hold⟩ := h'.all kind hkind
      exact ⟨i, hi, his, fun hin => hold (hcached i hin)⟩
  · obtain ⟨es, hes, hnames⟩ := h.entries
    obtain ⟨es', hes', hnames'⟩ := h'.entries
    refine ⟨es ++ es', ?_, ?_⟩
    · rw [hes', hes, List.append_assoc]
    · rw [List.map_append, hnames, hnames']
  · rcases List.mem_append.1 hr with hr | hr
    · obtain ⟨i, data, hi, hreal, hin⟩ := h.met r hr
      exact ⟨i, data, h'.evolves.cached i hi,
        (h'.evolves.real i hi).trans hreal, hin⟩
    · exact h'.met r hr
  · rw [h'.fileLinks i hi htype, List.count_append]
    by_cases hit : t.Cached i
    · have htype' : (t.nodes i).din.type = sfsTypeFile :=
        (h'.evolves.type i hit).symm.trans htype
      rw [h.fileLinks i hit htype', h'.evolves.real i hit, Nat.mod_add_mod,
        Nat.add_assoc]
    · -- what is met only now was not met before
      have hnone : reals.count (u.nodes i).real = 0 := by
        refine List.count_eq_zero.2 fun hin => ?_
        obtain ⟨j, data, hj, hreal, hmem⟩ := h.met _ hin
        have heq := h'.kept.unique hi (h'.evolves.cached j hj) hmem
          ((h'.evolves.real j hj).trans hreal)
        exact hit (heq ▸ hj)
      have hnew : ¬ s.Cached i := fun hin => hit (hcached i hin)
      rw [hnone, Nat.zero_add, (hsound'.fresh hit).nlinks,
        (hsound.fresh hnew).nlinks]
  · rw [h'.dirLinks i (hcached i hi) ((h.evolves.type i hi).trans htype) hne]
    exact h.dirLinks i hi htype hne
  · obtain ⟨k, hk, hlinks⟩ := h.currentLinks
    obtain ⟨k', hk', hlinks'⟩ := h'.currentLinks
    refine ⟨k + k', ?_, ?_⟩
    · rw [List.length_append]
      omega
    · rw [hlinks', hlinks, Nat.mod_add_mod, Nat.add_assoc]

/-- A name more of a regular file that was met. -/
theorem again (hkept : Kept files s) (hsound : Sound held s)
    (hcurrent : s.Cached current) (hfile : s.Cached file) (hname : 0 ∉ name)
    (hin : ((s.nodes file).real, data) ∈ files.mem)
    (henter : Entered current file name s t) :
    Walked files current (fun kind => kind = .file (s.nodes file).real data)
      [name] [(s.nodes file).real] s t := by
  have hev := henter.evolves
  have hcached : t.Cached = s.Cached := cached_congr henter.inodes
  have his := hkept.known hfile hin
  have hlt := hsound.nlinks_lt
  have hne : file ≠ current := by
    rintro rfl
    exact file_ne_dir (his.1.symm.trans henter.dir)
  refine ⟨hkept.enter hsound hcurrent hfile hname henter, hev,
    fun i hi hnew => ?_, ?_, ⟨[(name, file)], ?_, rfl⟩, fun r hr => ?_,
    fun i hi htype => ?_, fun i hi htype _ => ?_, ⟨0, Nat.zero_le _, ?_⟩⟩
  · rw [hcached] at hi
    exact absurd hi hnew
  · rintro _ rfl
    refine ⟨file, hev.cached file hfile, ?_, fun _ => ?_⟩
    · exact his.evolves hev hfile hne fun hdir =>
        absurd (his.1.symm.trans hdir) file_ne_dir
    · exact (henter.type file).trans his.1
  · rw [henter.written]
    exact Function.update_self ..
  · rw [List.mem_singleton] at hr
    exact ⟨file, data, hev.cached file hfile, (henter.real file).trans hr.symm,
      hr ▸ hin⟩
  · rw [hcached] at hi
    rw [henter.nlinks, henter.real]
    by_cases hif : i = file
    · rw [if_pos hif, hif, List.count_singleton_self]
    · have hother : (s.nodes i).real ≠ (s.nodes file).real := fun heq =>
        hif (hkept.unique hfile hi hin heq)
      rw [if_neg hif, List.count_singleton, if_neg (by simpa using hother.symm)]
      exact (Nat.mod_eq_of_lt (hlt i)).symm
  · have hif : i ≠ file := by
      rintro rfl
      exact file_ne_dir (his.1.symm.trans htype)
    rw [henter.nlinks, if_neg hif]
  · rw [henter.nlinks, if_neg hne.symm]
    exact (Nat.mod_eq_of_lt (hlt current)).symm

/-- An inode that is no directory was made, and entered. -/
theorem made {kind : Kind} (hkept : Kept files t) (hsound : Sound held t)
    (hev : Evolves current s t) (hnew : ¬ s.Cached n)
    (hcached : ∀ j, t.Cached j ↔ s.Cached j ∨ j = n)
    (hlinks : ∀ j, (t.nodes j).din.nlinks = (s.nodes j).din.nlinks)
    (hwritten : t.written = s.written) (hcurrent : s.Cached current)
    (hname : 0 ∉ name) (his : Is t n kind)
    (htype : (t.nodes n).din.type ≠ sfsTypeDir)
    (hmet : ∀ r ∈ reals, r = (t.nodes n).real ∧ ∃ data, (r, data) ∈ files.mem)
    (hcount : ∀ i, t.Cached i → (t.nodes i).din.type = sfsTypeFile →
      reals.count (t.nodes i).real = if i = n then 1 else 0)
    (henter : Entered current n name t u) :
    Walked files current (fun kind' => kind' = kind) [name] reals s u := by
  have hev' := henter.evolves
  have hself : t.Cached n := (hcached n).2 (Or.inr rfl)
  have hcurrent' : t.Cached current := (hcached current).2 (Or.inl hcurrent)
  have hcached' : u.Cached = t.Cached := cached_congr henter.inodes
  have hlt := hsound.nlinks_lt
  have hne : n ≠ current := fun heq => hnew (heq ▸ hcurrent)
  have his' : Is u n kind := his.evolves hev' hself hne fun hdir =>
    absurd hdir htype
  refine ⟨hkept.enter hsound hcurrent' hself hname henter, hev.trans hev',
    fun i hi hnew' => ?_, ?_, ⟨[(name, n)], ?_, rfl⟩, fun r hr => ?_,
    fun i hi htype' => ?_, fun i hi htype' _ => ?_, ⟨0, Nat.zero_le _, ?_⟩⟩
  · rw [hcached'] at hi
    obtain rfl := ((hcached i).1 hi).resolve_left hnew'
    exact ⟨kind, rfl, his'⟩
  · rintro _ rfl
    exact ⟨n, hev'.cached n hself, his', fun hin => absurd hin hnew⟩
  · rw [henter.written, ← hwritten]
    exact Function.update_self ..
  · obtain ⟨hreal, data, hin⟩ := hmet r hr
    exact ⟨n, data, hev'.cached n hself, (henter.real n).trans hreal.symm, hin⟩
  · rw [hcached'] at hi
    rw [henter.type] at htype'
    rw [henter.nlinks, henter.real, hcount i hi htype', ← hlinks]
    split
    case isTrue => rfl
    case isFalse => exact (Nat.mod_eq_of_lt (hlt i)).symm
  · have hin : i ≠ n := fun heq => hnew (heq ▸ hi)
    rw [henter.nlinks, if_neg hin, hlinks]
  · rw [henter.nlinks, if_neg hne.symm, hlinks]
    rw [← hlinks]
    exact (Nat.mod_eq_of_lt (hlt current)).symm

end Walked

-- ========================================================= one entry

theorem Extended.cached {bs : List Nat} (h : Extended file bs n s t) :
    t.Cached = s.Cached := cached_congr h.inodes

theorem addFile_walked (hkept : Kept files s) (h : Sound held s)
    (hcurrent : s.Cached current) (hname : 0 ∉ name)
    (hin : (real, data) ∈ files.mem)
    (hrun : addFile current name real data s = some ((), t)) :
    Walked files current (fun kind => kind = .file real data) [name] [real]
      s t := by
  unfold addFile at hrun
  obtain ⟨o, s₁, hsearch, hrun⟩ := Call.bind_eq_some.1 hrun
  obtain ⟨hs₁, hfound, hnone⟩ := searchCacheInode_run h hsearch
  rw [hs₁] at hrun
  cases o with
  | some file =>
      obtain ⟨hfile, hreal⟩ := hfound file rfl
      obtain ⟨-, henter⟩ := addEntry_spec h hcurrent hfile hrun
      rw [← hreal] at hin ⊢
      exact Walked.again hkept h hcurrent hfile hname hin henter
  | none =>
      obtain ⟨n, s₂, halloc, hrun⟩ := Call.bind_eq_some.1 hrun
      obtain ⟨h₂, halloc⟩ := allocCacheInode_spec h (by decide) halloc
      obtain ⟨_, s₃, hopen, hrun⟩ := Call.bind_eq_some.1 hrun
      obtain ⟨h₃, bs, hext, hholds⟩ := openFile_spec h₂ halloc.self hopen
      have hev₂ : Evolves n s s₂ := halloc.evolves
      have hev : Evolves n s s₃ := hev₂.trans hext.evolves
      have hcached : ∀ j, s₃.Cached j ↔ s.Cached j ∨ j = n := by
        rw [hext.cached]
        exact halloc.cached
      have htype : (s₃.nodes n).din.type = sfsTypeFile := by
        rw [hext.type, halloc.node]
        rfl
      have hreal : (s₃.nodes n).real = real := by
        rw [hext.real, halloc.node]
        rfl
      have hlinks : ∀ j, (s₃.nodes j).din.nlinks = (s.nodes j).din.nlinks := by
        intro j
        rw [hext.nlinks]
        by_cases hj : j = n
        · rw [hj, halloc.node, (h.fresh halloc.new).nlinks]
          rfl
        · rw [halloc.nodes j hj]
      have hstored : s₃.stored n = bs := by
        rw [hext.stored, Function.update_self, halloc.stored,
          (h.fresh halloc.new).stored, List.nil_append]
      have his : Is s₃ n (.file real data) := by
        refine ⟨htype, hreal, ?_, ?_⟩
        · rw [hext.size, halloc.node]
          exact congrArg (· % 2 ^ 32) (Nat.zero_add _)
        · rw [hstored]
          exact hholds
      have hfresh : ∀ j, s.Cached j → (s.nodes j).real ≠ real := hnone rfl
      have hkept₃ : Kept files s₃ := by
        refine hkept.new hev halloc.new hcached (fun j _ => hlinks j)
          (fun {data'} hin' => ?_) (fun _ => ?_) (fun {data'} _ => ?_)
          fun hdir => absurd (htype.symm.trans hdir) file_ne_dir
        · rw [hreal] at hin' ⊢
          rw [files.same hin hin']
          exact his
        · rw [hreal]
          exact ⟨data, hin⟩
        · rw [hreal]
          exact hfresh
      obtain ⟨hsound, henter⟩ := addEntry_spec h₃
        ((hcached current).2 (Or.inl hcurrent)) ((hcached n).2 (Or.inr rfl)) hrun
      refine Walked.made hkept₃ h₃ (halloc.evolves.inside halloc.new hext.evolves)
        halloc.new hcached hlinks ?_ hcurrent hname his ?_ ?_ ?_ henter
      · rw [hext.written, halloc.written]
      · rw [htype]
        exact file_ne_dir
      · intro r hr
        rw [hreal]
        rw [List.mem_singleton.1 hr]
        exact ⟨rfl, data, hin⟩
      · intro i hi _
        by_cases hi' : i = n
        · rw [if_pos hi', hi', hreal, List.count_singleton_self]
        · have hold := ((hcached i).1 hi).resolve_right hi'
          have hother : (s₃.nodes i).real ≠ real := by
            rw [hev.real i hold]
            exact hfresh i hold
          rw [if_neg hi', List.count_singleton, if_neg (by simpa using hother.symm)]

theorem addLink_walked (hkept : Kept files s) (h : Sound held s)
    (hcurrent : s.Cached current) (hname : 0 ∉ name)
    (hout : ∀ d, (real, d) ∉ files.mem)
    (hrun : addLink current name real data s = some ((), t)) :
    Walked files current (fun kind => kind = .link) [name] [] s t := by
  unfold addLink at hrun
  obtain ⟨n, s₂, halloc, hrun⟩ := Call.bind_eq_some.1 hrun
  obtain ⟨h₂, halloc⟩ := allocCacheInode_spec h (by decide) halloc
  obtain ⟨_, s₃, hopen, hrun⟩ := Call.bind_eq_some.1 hrun
  obtain ⟨h₃, b, hext⟩ := openLink_spec h₂ halloc.self hopen
  have hlinkFile : sfsTypeLink ≠ sfsTypeFile := by decide
  have hlinkDir : sfsTypeLink ≠ sfsTypeDir := by decide
  have hev₂ : Evolves n s s₂ := halloc.evolves
  have hev : Evolves n s s₃ := hev₂.trans hext.evolves
  have hcached : ∀ j, s₃.Cached j ↔ s.Cached j ∨ j = n := by
    rw [hext.cached]
    exact halloc.cached
  have htype : (s₃.nodes n).din.type = sfsTypeLink := by
    rw [hext.type, halloc.node]
    rfl
  have hreal : (s₃.nodes n).real = real := by
    rw [hext.real, halloc.node]
    rfl
  have hlinks : ∀ j, (s₃.nodes j).din.nlinks = (s.nodes j).din.nlinks := by
    intro j
    rw [hext.nlinks]
    by_cases hj : j = n
    · rw [hj, halloc.node, (h.fresh halloc.new).nlinks]
      rfl
    · rw [halloc.nodes j hj]
  have hkept₃ : Kept files s₃ := by
    refine hkept.new hev halloc.new hcached (fun j _ => hlinks j)
      (fun {d} hin => ?_) (fun hfile => ?_) (fun {d} hin => ?_) fun hdir => ?_
    · rw [hreal] at hin
      exact absurd hin (hout d)
    · exact absurd (htype.symm.trans hfile) hlinkFile
    · rw [hreal] at hin
      exact absurd hin (hout d)
    · exact absurd (htype.symm.trans hdir) hlinkDir
  obtain ⟨hsound, henter⟩ := addEntry_spec h₃
    ((hcached current).2 (Or.inl hcurrent)) ((hcached n).2 (Or.inr rfl)) hrun
  refine Walked.made hkept₃ h₃ (halloc.evolves.inside halloc.new hext.evolves)
    halloc.new hcached hlinks ?_ hcurrent hname ⟨htype, ?_⟩ ?_
    (fun r hr => by cases hr) (fun i _ hfile => ?_) henter
  · rw [hext.written, halloc.written]
  · rw [hext.stored, Function.update_self, halloc.stored,
      (h.fresh halloc.new).stored]
    rfl
  · rw [htype]
    exact hlinkDir
  · have hi' : i ≠ n := fun heq => hlinkFile (htype.symm.trans (heq ▸ hfile))
    rw [if_neg hi', List.count_nil]

/-- What a loop over the entries of a directory goes through. -/
def Walks (files : Files) (loop : Nat → MksfsM Unit) (kinds : Kind → Prop)
    (names : List (List UInt8)) (reals : List Nat) : Prop :=
  ∀ ⦃current s t⦄, Kept files s → Sound ∅ s → s.Cached current →
    (s.nodes current).din.type = sfsTypeDir →
    loop current s = some ((), t) → Walked files current kinds names reals s t

theorem dot_string : (0 : UInt8) ∉ [dot] := by decide

theorem dotdot_string : (0 : UInt8) ∉ [dot, dot] := by decide

/-- A directory with its two entries for itself and its parent. -/
theorem dots_kept (hkept : Kept files s) (h : Sound held s)
    (hcurrent : s.Cached current) (hparent : s.Cached parent)
    (hdot : Entered current current [dot] s t)
    (hsound : Sound held t) (hdotdot : Entered current parent [dot, dot] t u) :
    Kept files u ∧ u.written current
      = s.written current ++ [([dot], current), ([dot, dot], parent)] := by
  have hcached : t.Cached = s.Cached := cached_congr hdot.inodes
  have hkept' := hkept.enter h hcurrent hcurrent dot_string hdot
  refine ⟨hkept'.enter hsound ?_ ?_ dotdot_string hdotdot, ?_⟩
  · rw [hcached]
    exact hcurrent
  · rw [hcached]
    exact hparent
  · rw [hdotdot.written, Function.update_self, hdot.written,
      Function.update_self, List.append_assoc]
    rfl

/-- A directory is new: it has its two entries. -/
structure Opened (n parent real : Nat) (files : Files) (s t : Image) : Prop where
  kept : Kept files t
  evolves : Evolves parent s t
  new : ¬ s.Cached n
  cached : ∀ j, t.Cached j ↔ s.Cached j ∨ j = n
  type : (t.nodes n).din.type = sfsTypeDir
  written : t.written n = [([dot], n), ([dot, dot], parent)]
  writtenParent : t.written parent = s.written parent
  nlinks : (t.nodes n).din.nlinks = 1
  parentLinks : (t.nodes parent).din.nlinks
    = ((s.nodes parent).din.nlinks + 1) % 2 ^ 16
  same : ∀ j, j ≠ n → j ≠ parent →
    (t.nodes j).din.nlinks = (s.nodes j).din.nlinks

theorem dots_opened {s₁ s₂ s₃ : Image} (hkept : Kept files s) (h : Sound ∅ s)
    (hparent : s.Cached parent) (hout : ∀ d, (real, d) ∉ files.mem)
    (halloc : Allocated n real sfsTypeDir s s₁) (h₁ : Sound ∅ s₁)
    (hdot : Entered n n [dot] s₁ s₂) (h₂ : Sound ∅ s₂)
    (hdotdot : Entered n parent [dot, dot] s₂ s₃) :
    Opened n parent real files s s₃ := by
  have hnew := halloc.new
  have hne : parent ≠ n := fun heq => hnew (heq ▸ hparent)
  have hfresh := h.fresh hnew
  have hev₁ : Evolves n s s₁ := halloc.evolves
  have hreal : (s₁.nodes n).real = real := by
    rw [halloc.node]
    rfl
  have htype : (s₁.nodes n).din.type = sfsTypeDir := by
    rw [halloc.node]
    rfl
  have hzero : (s₁.nodes n).din.nlinks = 0 := by
    rw [halloc.node]
    rfl
  have hkept₁ : Kept files s₁ := by
    refine hkept.new hev₁ hnew halloc.cached (fun j hj => ?_) (fun {d} hin => ?_)
      (fun hfile => ?_) (fun {d} hin => ?_) fun _ => ?_
    · rw [halloc.nodes j hj]
    · rw [hreal] at hin
      exact absurd hin (hout d)
    · exact absurd (hfile.symm.trans htype) file_ne_dir
    · rw [hreal] at hin
      exact absurd hin (hout d)
    · rw [halloc.written, halloc.stored, hfresh.written, hfresh.stored]
      exact List.Forall₂.nil
  have hparent₁ : s₁.Cached parent := (halloc.cached parent).2 (Or.inl hparent)
  obtain ⟨hkept₃, hwritten⟩ :=
    dots_kept hkept₁ h₁ halloc.self hparent₁ hdot h₂ hdotdot
  have hev₃ := hdot.evolves.trans hdotdot.evolves
  refine ⟨hkept₃, halloc.evolves.inside hnew hev₃, hnew, fun j => ?_, ?_, ?_, ?_,
    ?_, ?_, fun j hjn hjp => ?_⟩
  · rw [cached_congr hdotdot.inodes, cached_congr hdot.inodes]
    exact halloc.cached j
  · rw [hdotdot.type, hdot.type, htype]
  · rw [hwritten, halloc.written, hfresh.written, List.nil_append]
  · rw [hev₃.written parent hparent₁ hne, halloc.written]
  · rw [hdotdot.nlinks, if_neg hne.symm, hdot.nlinks, if_pos rfl, hzero]
    rfl
  · rw [hdotdot.nlinks, if_pos rfl, hdot.nlinks, if_neg hne,
      halloc.nodes parent hne]
  · rw [hdotdot.nlinks, if_neg hjp, hdot.nlinks, if_neg hjn, halloc.nodes j hjn]

/-- A directory is gone through, and entered into its parent. -/
theorem Opened.walked {s₃ s₄ : Image} {kinds : Kind → Prop}
    {names : List (List UInt8)} {reals : List Nat}
    (hopened : Opened n parent real files s s₃) (hparent : s.Cached parent)
    (hdir : (s.nodes parent).din.type = sfsTypeDir) (hname : 0 ∉ name)
    (hw : Walked files n kinds names reals s₃ s₄) (h₄ : Sound ∅ s₄)
    (henter : Entered parent n name s₄ t) :
    Walked files parent (fun kind => kind = .dir names ∨ kinds kind) [name] reals
      s t := by
  have hne : parent ≠ n := fun heq => hopened.new (heq ▸ hparent)
  have hself₃ : s₃.Cached n := (hopened.cached n).2 (Or.inr rfl)
  have hparent₃ : s₃.Cached parent := hopened.evolves.cached parent hparent
  have hparent₄ : s₄.Cached parent := hw.evolves.cached parent hparent₃
  have hdir₃ : (s₃.nodes parent).din.type = sfsTypeDir :=
    (hopened.evolves.type parent hparent).trans hdir
  have hdir₄ : (s₄.nodes parent).din.type = sfsTypeDir :=
    (hw.evolves.type parent hparent₃).trans hdir₃
  have hself₄ : (s₄.nodes n).din.type = sfsTypeDir :=
    (hw.evolves.type n hself₃).trans hopened.type
  have hev := henter.evolves
  have hcached : t.Cached = s₄.Cached := cached_congr henter.inodes
  have hin : Evolves parent s s₄ := hopened.evolves.inside hopened.new hw.evolves
  have hlinks : ∀ {i}, i ≠ n → (t.nodes i).din.nlinks = (s₄.nodes i).din.nlinks := by
    intro i hi
    rw [henter.nlinks, if_neg hi]
  have hisDir : Is t n (.dir names) := by
    refine ⟨(henter.type n).trans hself₄, ?_, ?_⟩
    · obtain ⟨es, hes, hnames⟩ := hw.entries
      rw [hev.written n (hw.evolves.cached n hself₃) hne.symm, hes,
        hopened.written, List.map_append, hnames]
      rfl
    · obtain ⟨k, hk, heq⟩ := hw.currentLinks
      refine ⟨k, hk, ?_⟩
      rw [henter.nlinks, if_pos rfl, heq, hopened.nlinks, Nat.mod_add_mod]
      congr 1
      omega
  refine ⟨hw.kept.enter h₄ hparent₄ (hw.evolves.cached n hself₃) hname henter,
    hin.trans hev, fun i hi hold => ?_, fun kind hkind => ?_,
    ⟨[(name, n)], ?_, rfl⟩, fun r hr => ?_, fun i hi htype => ?_,
    fun i hi htype hip => ?_, ⟨1, Nat.le_refl _, ?_⟩⟩
  · rw [hcached] at hi
    by_cases hi₃ : s₃.Cached i
    · obtain rfl := ((hopened.cached i).1 hi₃).resolve_left hold
      exact ⟨_, Or.inl rfl, hisDir⟩
    · obtain ⟨kind, hkind, his⟩ := hw.new i hi hi₃
      have hip : i ≠ parent := fun heq => hold (heq ▸ hparent)
      have hin' : i ≠ n := fun heq => hi₃ (heq ▸ hself₃)
      exact ⟨kind, Or.inr hkind, his.evolves hev hi hip fun _ => hlinks hin'⟩
  · rcases hkind with rfl | hkind
    · exact ⟨n, hev.cached n (hw.evolves.cached n hself₃), hisDir,
        fun hold => absurd hold hopened.new⟩
    · obtain ⟨i, hi, his, hold⟩ := hw.all kind hkind
      have hip : i ≠ parent := by
        rintro rfl
        exact file_ne_dir ((hold hparent₃).symm.trans hdir₄)
      have hin' : i ≠ n := by
        rintro rfl
        exact file_ne_dir ((hold hself₃).symm.trans hself₄)
      refine ⟨i, hev.cached i hi, his.evolves hev hi hip fun _ => hlinks hin',
        fun hs => ?_⟩
      rw [henter.type]
      exact hold (hopened.evolves.cached i hs)
  · rw [henter.written, Function.update_self,
      hw.evolves.written parent hparent₃ hne, hopened.writtenParent]
  · obtain ⟨i, data, hi, hreal, hmem⟩ := hw.met r hr
    exact ⟨i, data, hev.cached i hi, (henter.real i).trans hreal, hmem⟩
  · rw [hcached] at hi
    rw [henter.type] at htype
    have hip : i ≠ parent := by
      rintro rfl
      exact file_ne_dir (htype.symm.trans hdir₄)
    have hin' : i ≠ n := by
      rintro rfl
      exact file_ne_dir (htype.symm.trans hself₄)
    rw [hlinks hin', henter.real, hw.fileLinks i hi htype, hopened.same i hin' hip]
  · have hin' : i ≠ n := fun heq => hopened.new (heq ▸ hi)
    have hi₃ := hopened.evolves.cached i hi
    rw [hlinks hin', hw.dirLinks i hi₃
      ((hopened.evolves.type i hi).trans htype) hin', hopened.same i hin' hip]
  · rw [hlinks hne, hw.dirLinks parent hparent₃ hdir₃ hne, hopened.parentLinks]

/-- A directory is opened, gone through, and entered. -/
theorem addDir_run {loop : Nat → MksfsM Unit} (hkeeps : Keeps loop)
    (hkept : Kept files s) (h : Sound ∅ s) (hparent : s.Cached parent)
    (hout : ∀ d, (real, d) ∉ files.mem)
    (hrun : addDir loop parent name real s = some ((), t)) :
    ∃ n s₃ s₄, Opened n parent real files s s₃ ∧ Sound ∅ s₃
      ∧ loop n s₃ = some ((), s₄) ∧ Sound ∅ s₄ ∧ Entered parent n name s₄ t := by
  obtain ⟨n, s₁, s₂, s₃, s₄, ⟨h₁, halloc⟩, ⟨h₂, hdot⟩, ⟨h₃, hdotdot⟩,
    ⟨h₄, -, hloop⟩, -, henter⟩ := addDir_steps hkeeps h hparent hrun
  exact ⟨n, s₃, s₄, dots_opened hkept h hparent hout halloc h₁ hdot h₂ hdotdot, h₃,
    hloop, h₄, henter⟩

theorem addDir_walked {loop : Nat → MksfsM Unit} {kinds : Kind → Prop}
    {names : List (List UInt8)} {reals : List Nat} (hkeeps : Keeps loop)
    (hwalks : Walks files loop kinds names reals) (hkept : Kept files s)
    (h : Sound ∅ s) (hparent : s.Cached parent)
    (hdir : (s.nodes parent).din.type = sfsTypeDir) (hname : 0 ∉ name)
    (hout : ∀ d, (real, d) ∉ files.mem)
    (hrun : addDir loop parent name real s = some ((), t)) :
    Walked files parent (fun kind => kind = .dir names ∨ kinds kind) [name] reals
      s t := by
  obtain ⟨n, s₃, s₄, hopened, h₃, hloop, h₄, henter⟩ :=
    addDir_run hkeeps hkept h hparent hout hrun
  have hw := hwalks hopened.kept h₃ ((hopened.cached n).2 (Or.inr rfl))
    hopened.type hloop
  exact hopened.walked hparent hdir hname hw h₄ henter

end Ucore.Mksfs
