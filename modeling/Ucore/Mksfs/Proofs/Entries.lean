/-
All entries of a directory of the host, with what is below: `Walked` says what
inodes there are then, and `Mirrors` how the directories list them.
-/
import Ucore.Mksfs.Proofs.Tree

namespace Ucore.Mksfs

open Sfs

variable {s t u : Image} {files : Files} {b c i j k n r file size real : Nat}
  {current parent self : Nat} {name data : List UInt8}
  {es : List (List UInt8 × Nat)}

-- ======================================================= all entries

/-- A loop takes an entry, and then the others. -/
def Takes (loop : Nat → MksfsM Unit) (name : List UInt8)
    (entry rest : Nat → MksfsM Unit) : Prop :=
  ∀ current, loop current = withName name (entry current) >>= fun _ => rest current

theorem takes_dir {entries rest : Listing} :
    Takes (readEntries (.dir name real entries rest)) name
      (fun current => addDir (readEntries entries) current name real)
      (readEntries rest) := fun _ => rfl

theorem takes_file {rest : Listing} :
    Takes (readEntries (.file name real data rest)) name
      (fun current => addFile current name real data) (readEntries rest) :=
  fun _ => rfl

theorem takes_link {target : List UInt8} {rest : Listing} :
    Takes (readEntries (.link name real target rest)) name
      (fun current => addLink current name real target) (readEntries rest) :=
  fun _ => rfl

/-- An entry that is neither directory, file nor link is passed over. -/
theorem withName_pure (hrun : withName name (return ()) s = some ((), t)) :
    t = s := by
  unfold withName at hrun
  split at hrun
  case isTrue => exact (Call.pure_eq_some.1 hrun).2
  case isFalse =>
      split at hrun
      case isTrue => exact absurd hrun Call.panic_ne_some
      case isFalse => exact (Call.pure_eq_some.1 hrun).2

/-- Behind a hidden entry are the others. -/
theorem Takes.skip {loop entry rest : Nat → MksfsM Unit}
    (h : Takes loop name entry rest) (hname : hidden name = true)
    (hrun : loop current s = some ((), t)) : rest current s = some ((), t) := by
  rw [h] at hrun
  obtain ⟨_, s₁, hrun, hrest⟩ := Call.bind_eq_some.1 hrun
  unfold withName at hrun
  rw [if_pos hname, Call.pure_eq_some] at hrun
  rw [hrun.2] at hrest
  exact hrest

/-- An entry is added, and then the others. -/
theorem Takes.add {loop entry rest : Nat → MksfsM Unit}
    (h : Takes loop name entry rest) (hname : hidden name ≠ true)
    (hrun : loop current s = some ((), t)) : ∃ s₁,
      entry current s = some ((), s₁) ∧ rest current s₁ = some ((), t) := by
  rw [h] at hrun
  obtain ⟨_, s₁, hrun, hrest⟩ := Call.bind_eq_some.1 hrun
  unfold withName at hrun
  rw [if_neg hname] at hrun
  split at hrun
  case isTrue => exact absurd hrun Call.panic_ne_some
  case isFalse => exact ⟨s₁, hrun, hrest⟩

/-- Directory `self` lists what is in a listing, and so do the directories
below, none of which is an old one. -/
def Mirrors (files : Files) (s : Image) (old : Nat → Prop) :
    Nat → Listing → List (List UInt8 × Nat) → Prop
  | _, .done, es => es = []
  | self, .dir name _ entries rest, es =>
      if hidden name then Mirrors files s old self rest es
      else ∃ i below es', es = (name, i) :: es' ∧ s.Cached i ∧ ¬ old i
        ∧ (s.nodes i).din.type = sfsTypeDir
        ∧ s.written i = ([dot], i) :: ([dot, dot], self) :: below
        ∧ Mirrors files s old i entries below ∧ Mirrors files s old self rest es'
  | self, .file name real data rest, es =>
      if hidden name then Mirrors files s old self rest es
      else ∃ i es', es = (name, i) :: es' ∧ s.Cached i ∧ (s.nodes i).real = real
        ∧ (real, data) ∈ files.mem ∧ Mirrors files s old self rest es'
  | self, .link name _ _ rest, es =>
      if hidden name then Mirrors files s old self rest es
      else ∃ i es', es = (name, i) :: es' ∧ s.Cached i
        ∧ (s.nodes i).din.type = sfsTypeLink ∧ Mirrors files s old self rest es'
  | self, .other _ rest, es => Mirrors files s old self rest es

/-- Nothing comes of the first entry of a listing: it is hidden, or neither
directory, file nor link. -/
structure Hides (l rest : Listing) : Prop where
  names : l.names = rest.names
  dirs : l.dirs = rest.dirs
  files : l.files = rest.files
  links : l.links = rest.links
  find : ∀ name, l.find name = rest.find name
  mirrors : ∀ files s old self es,
    Mirrors files s old self l es ↔ Mirrors files s old self rest es
  run : ∀ {current s t}, readEntries l current s = some ((), t) →
    readEntries rest current s = some ((), t)

section Hides

variable {entries rest : Listing} {target : List UInt8}

theorem hides_dir (hname : hidden name = true) :
    Hides (.dir name real entries rest) rest where
  names := if_pos hname
  dirs := if_pos hname
  files := if_pos hname
  links := if_pos hname
  find _ := if_neg fun h => h.2 hname
  mirrors files s old self es := by rw [Mirrors, if_pos hname]
  run := takes_dir.skip hname

theorem hides_file (hname : hidden name = true) :
    Hides (.file name real data rest) rest where
  names := if_pos hname
  dirs := rfl
  files := if_pos hname
  links := rfl
  find _ := if_neg fun h => h.2 hname
  mirrors files s old self es := by rw [Mirrors, if_pos hname]
  run := takes_file.skip hname

theorem hides_link (hname : hidden name = true) :
    Hides (.link name real target rest) rest where
  names := if_pos hname
  dirs := rfl
  files := rfl
  links := if_pos hname
  find _ := if_neg fun h => h.2 hname
  mirrors files s old self es := by rw [Mirrors, if_pos hname]
  run := takes_link.skip hname

theorem hides_other : Hides (.other name rest) rest where
  names := rfl
  dirs := rfl
  files := rfl
  links := rfl
  find _ := rfl
  mirrors _ _ _ _ _ := Iff.rfl
  run := by
    intro current s t hrun
    obtain ⟨_, s₁, hother, hrest⟩ := Call.bind_eq_some.1 hrun
    rw [withName_pure hother] at hrest
    exact hrest

end Hides

/-- Induction over the entries of a listing of which something comes. -/
theorem Listing.shown_rec {P : Listing → Prop} (done : P .done)
    (hides : ∀ l rest, Hides l rest → P rest → P l)
    (dir : ∀ name real entries rest, hidden name ≠ true → P entries → P rest →
      P (.dir name real entries rest))
    (file : ∀ name real data rest, hidden name ≠ true → P rest →
      P (.file name real data rest))
    (link : ∀ name real target rest, hidden name ≠ true → P rest →
      P (.link name real target rest)) (l : Listing) : P l := by
  induction l with
  | done => exact done
  | dir name real entries rest ihentries ihrest =>
      by_cases hname : hidden name = true
      · exact hides _ _ (hides_dir hname) ihrest
      · exact dir name real entries rest hname ihentries ihrest
  | file name real data rest ihrest =>
      by_cases hname : hidden name = true
      · exact hides _ _ (hides_file hname) ihrest
      · exact file name real data rest hname ihrest
  | link name real target rest ihrest =>
      by_cases hname : hidden name = true
      · exact hides _ _ (hides_link hname) ihrest
      · exact link name real target rest hname ihrest
  | other name rest ihrest => exact hides _ _ hides_other ihrest

namespace Walks

variable {loop entry rest : Nat → MksfsM Unit} {kinds kinds' : Kind → Prop}
  {names names' : List (List UInt8)} {reals reals' : List Nat}

/-- An entry is gone through, and then the others. -/
theorem cons (hentry : Walks files entry kinds names reals) (hkeeps : Keeps entry)
    (h : Walks files rest kinds' names' reals')
    (htakes : Takes loop name entry rest) (hname : hidden name ≠ true) :
    Walks files loop (fun kind => kinds kind ∨ kinds' kind) (names ++ names')
      (reals ++ reals') := by
  intro current s t hkept hsound hcurrent hdir hrun
  obtain ⟨s₁, hrun, hrest⟩ := htakes.add hname hrun
  obtain ⟨hsound₁, hev⟩ := hkeeps hsound hcurrent hrun
  have hw := hentry hkept hsound hcurrent hdir hrun
  have hw' := h hw.kept hsound₁ (hev.cached _ hcurrent)
    ((hev.type _ hcurrent).trans hdir) hrest
  exact hw.trans hw' hsound hsound₁ hcurrent hdir

theorem congr (h : Walks files loop kinds names reals)
    (hkinds : ∀ kind, kinds' kind ↔ kinds kind) :
    Walks files loop kinds' names reals :=
  fun _ _ _ hkept hsound hcurrent hdir hrun =>
    (h hkept hsound hcurrent hdir hrun).mono hkinds

end Walks

/-- A part of a tree with these regular files. -/
structure Within (files : Files) (l : Listing) : Prop where
  mem : ∀ f ∈ l.files, f ∈ files.mem
  links : ∀ real ∈ l.links, ∀ data, (real, data) ∉ files.mem
  dirs : ∀ d ∈ l.dirs, ∀ data, (d.1, data) ∉ files.mem
  names : ∀ name ∈ l.names, 0 ∉ name
  below : ∀ d ∈ l.dirs, ∀ name ∈ d.2.names, 0 ∉ name

namespace Within

variable {entries rest : Listing} {target : List UInt8}

/-- A part of a part. -/
theorem part {l m : Listing} (h : Within files l)
    (hfiles : m.files ⊆ l.files) (hlinks : m.links ⊆ l.links)
    (hdirs : m.dirs ⊆ l.dirs) (hnames : ∀ name ∈ m.names, 0 ∉ name) :
    Within files m where
  mem f hf := h.mem f (hfiles hf)
  links r hr := h.links r (hlinks hr)
  dirs d hd := h.dirs d (hdirs hd)
  names := hnames
  below d hd := h.below d (hdirs hd)

/-- What is left behind a hidden entry. -/
theorem behind {l : Listing} (h : Within files l) (hhides : Hides l rest) :
    Within files rest :=
  h.part (by rw [hhides.files]; exact fun _ hf => hf)
    (by rw [hhides.links]; exact fun _ hr => hr)
    (by rw [hhides.dirs]; exact fun _ hd => hd)
    (by rw [← hhides.names]; exact h.names)

theorem ofDir (h : Within files (.dir name real entries rest))
    (hname : hidden name ≠ true) : Within files entries
      ∧ Within files rest ∧ 0 ∉ name ∧ ∀ data, (real, data) ∉ files.mem := by
  have hnames : (Listing.dir name real entries rest).names
    = name :: rest.names := if_neg hname
  have hdirs : (Listing.dir name real entries rest).dirs
    = (real, entries) :: (entries.dirs ++ rest.dirs) := if_neg hname
  have hfiles : (Listing.dir name real entries rest).files
    = entries.files ++ rest.files := if_neg hname
  have hlinks : (Listing.dir name real entries rest).links
    = entries.links ++ rest.links := if_neg hname
  have hself : (real, entries) ∈ (Listing.dir name real entries rest).dirs := by
    rw [hdirs]
    exact List.mem_cons_self ..
  have hstrings := h.names
  rw [hnames, List.forall_mem_cons] at hstrings
  refine ⟨h.part ?_ ?_ ?_ (h.below _ hself), h.part ?_ ?_ ?_ hstrings.2,
    hstrings.1, h.dirs _ hself⟩
  · rw [hfiles]
    exact List.subset_append_left ..
  · rw [hlinks]
    exact List.subset_append_left ..
  · rw [hdirs]
    exact List.subset_cons_of_subset _ (List.subset_append_left ..)
  · rw [hfiles]
    exact List.subset_append_right ..
  · rw [hlinks]
    exact List.subset_append_right ..
  · rw [hdirs]
    exact List.subset_cons_of_subset _ (List.subset_append_right ..)

theorem ofFile (h : Within files (.file name real data rest))
    (hname : hidden name ≠ true) :
    Within files rest ∧ 0 ∉ name ∧ (real, data) ∈ files.mem := by
  have hnames : (Listing.file name real data rest).names
    = name :: rest.names := if_neg hname
  have hfiles : (Listing.file name real data rest).files
    = (real, data) :: rest.files := if_neg hname
  have hstrings := h.names
  have hmem := h.mem
  rw [hnames, List.forall_mem_cons] at hstrings
  rw [hfiles, List.forall_mem_cons] at hmem
  refine ⟨h.part ?_ (fun _ hr => hr) (fun _ hd => hd) hstrings.2, hstrings.1,
    hmem.1⟩
  rw [hfiles]
  exact List.subset_cons_self ..

theorem ofLink (h : Within files (.link name real target rest))
    (hname : hidden name ≠ true) :
    Within files rest ∧ 0 ∉ name ∧ ∀ data, (real, data) ∉ files.mem := by
  have hnames : (Listing.link name real target rest).names
    = name :: rest.names := if_neg hname
  have hlinks : (Listing.link name real target rest).links
    = real :: rest.links := if_neg hname
  have hstrings := h.names
  have hout := h.links
  rw [hnames, List.forall_mem_cons] at hstrings
  rw [hlinks, List.forall_mem_cons] at hout
  refine ⟨h.part (fun _ hf => hf) ?_ (fun _ hd => hd) hstrings.2, hstrings.1,
    hout.1⟩
  rw [hlinks]
  exact List.subset_cons_self ..

end Within

namespace Listing

variable {entries rest : Listing} {target : List UInt8}

theorem makes_hidden {l : Listing} (h : Hides l rest) (kind : Kind) :
    l.Makes kind ↔ rest.Makes kind := by
  cases kind with
  | dir names => simp only [Makes, h.dirs]
  | file real data => simp only [Makes, h.files]
  | link => simp only [Makes, h.links]

theorem makes_dir (hname : hidden name ≠ true) (kind : Kind) :
    (Listing.dir name real entries rest).Makes kind
      ↔ (kind = .dir entries.names ∨ entries.Makes kind) ∨ rest.Makes kind := by
  cases kind with
  | dir names =>
      simp only [Makes, dirs, if_neg hname, List.mem_cons, List.mem_append,
        or_and_right, exists_or, exists_eq_left, Kind.dir.injEq, or_assoc,
        eq_comm (a := entries.names)]
  | file real data =>
      simp only [Makes, files, if_neg hname, List.mem_append, reduceCtorEq,
        false_or]
  | link =>
      simp only [Makes, links, if_neg hname, ne_eq, List.append_eq_nil_iff,
        reduceCtorEq, false_or, Classical.not_and_iff_not_or_not]

theorem makes_file (hname : hidden name ≠ true) (kind : Kind) :
    (Listing.file name real data rest).Makes kind
      ↔ kind = .file real data ∨ rest.Makes kind := by
  cases kind with
  | dir names => simp only [Makes, dirs, reduceCtorEq, false_or]
  | file real' data' =>
      simp only [Makes, files, if_neg hname, List.mem_cons, Kind.file.injEq,
        Prod.mk.injEq]
  | link => simp only [Makes, links, reduceCtorEq, false_or]

theorem makes_link (hname : hidden name ≠ true) (kind : Kind) :
    (Listing.link name real target rest).Makes kind
      ↔ kind = .link ∨ rest.Makes kind := by
  cases kind with
  | dir names => simp only [Makes, dirs, reduceCtorEq, false_or]
  | file real' data => simp only [Makes, files, reduceCtorEq, false_or]
  | link => simp [Makes, links, if_neg hname]

theorem makes_done (kind : Kind) : ¬ Listing.done.Makes kind := by
  cases kind with
  | dir names => rintro ⟨d, hd, -⟩; cases hd
  | file real data => exact fun h => by cases h
  | link => exact fun h => h rfl

end Listing

/-- What a tree is made of is gone through. -/
theorem readEntries_walks {l : Listing} (h : Within files l) :
    Walks files (readEntries l) l.Makes l.names (l.files.map Prod.fst) := by
  induction l using Listing.shown_rec with
  | done =>
      intro current s t hkept hsound _ _ hrun
      obtain ⟨-, rfl⟩ := Call.pure_eq_some.1 hrun
      exact (Walked.refl hkept hsound).mono fun kind =>
        iff_of_false (Listing.makes_done kind) id
  | hides l rest hhides ihrest =>
      intro current s t hkept hsound hcurrent hdir hrun
      rw [hhides.names, hhides.files]
      exact (ihrest (h.behind hhides) hkept hsound hcurrent hdir
        (hhides.run hrun)).mono (Listing.makes_hidden hhides)
  | dir name real entries rest hname ihentries ihrest =>
      obtain ⟨hentries, hrest, hstring, hout⟩ := h.ofDir hname
      have hentry : Walks files
          (fun current => addDir (readEntries entries) current name real)
          (fun kind => kind = .dir entries.names ∨ entries.Makes kind) [name]
          (entries.files.map Prod.fst) :=
        fun _ _ _ hkept hsound hcurrent hdir hrun =>
          addDir_walked (readEntries_spec entries) (ihentries hentries) hkept
            hsound hcurrent hdir hstring hout hrun
      have hkeeps : Keeps fun current =>
          addDir (readEntries entries) current name real :=
        fun _ _ _ hsound hcurrent hrun =>
          addDir_spec (readEntries_spec entries) hsound hcurrent hrun
      rw [Listing.names, if_neg hname, Listing.files, if_neg hname,
        List.map_append]
      exact (hentry.cons hkeeps (ihrest hrest) takes_dir hname).congr
        (Listing.makes_dir hname)
  | file name real data rest hname ihrest =>
      obtain ⟨hrest, hstring, hin⟩ := h.ofFile hname
      have hentry : Walks files (fun current => addFile current name real data)
          (fun kind => kind = .file real data) [name] [real] :=
        fun _ _ _ hkept hsound hcurrent _ hrun =>
          addFile_walked hkept hsound hcurrent hstring hin hrun
      rw [Listing.names, if_neg hname, Listing.files, if_neg hname]
      exact (hentry.cons addFile_keeps (ihrest hrest) takes_file hname).congr
        (Listing.makes_file hname)
  | link name real target rest hname ihrest =>
      obtain ⟨hrest, hstring, hout⟩ := h.ofLink hname
      have hentry : Walks files (fun current => addLink current name real target)
          (fun kind => kind = .link) [name] [] :=
        fun _ _ _ hkept hsound hcurrent _ hrun =>
          addLink_walked hkept hsound hcurrent hstring hout hrun
      rw [Listing.names, if_neg hname]
      exact (hentry.cons addLink_keeps (ihrest hrest) takes_link hname).congr
        (Listing.makes_link hname)

-- ======================================================= the mirror

/-- What is mirrored stays so while an old directory gets entries, and nothing
depends on how many inodes are old. -/
theorem Mirrors.evolves {old old' : Nat → Prop} {l : Listing}
    (h : Mirrors files s old self l es) (hev : Evolves c s t) (hc : old c)
    (hold : ∀ i, old' i → old i) : Mirrors files t old' self l es := by
  induction l using Listing.shown_rec generalizing self es with
  | done => exact h
  | hides l rest hhides ihrest =>
      rw [hhides.mirrors] at h ⊢
      exact ihrest h
  | dir name real entries rest hname ihentries ihrest =>
      rw [Mirrors, if_neg hname] at h ⊢
      obtain ⟨i, below, es', hes, hi, hnew, htype, hwritten, hentries, hrest⟩ := h
      have hne : i ≠ c := fun heq => hnew (heq ▸ hc)
      refine ⟨i, below, es', hes, hev.cached i hi, fun h => hnew (hold i h),
        (hev.type i hi).trans htype, ?_, ihentries hentries, ihrest hrest⟩
      rw [hev.written i hi hne, hwritten]
  | file name real data rest hname ihrest =>
      rw [Mirrors, if_neg hname] at h ⊢
      obtain ⟨i, es', hes, hi, hreal, hin, hrest⟩ := h
      exact ⟨i, es', hes, hev.cached i hi, (hev.real i hi).trans hreal, hin,
        ihrest hrest⟩
  | link name real target rest hname ihrest =>
      rw [Mirrors, if_neg hname] at h ⊢
      obtain ⟨i, es', hes, hi, htype, hrest⟩ := h
      exact ⟨i, es', hes, hev.cached i hi, (hev.type i hi).trans htype,
        ihrest hrest⟩

/-- What a loop over the entries of a directory mirrors. -/
def Mirrored (files : Files) (l : Listing) : Prop :=
  ∀ ⦃current s t⦄, Kept files s → Sound ∅ s → s.Cached current →
    (s.nodes current).din.type = sfsTypeDir →
    readEntries l current s = some ((), t) →
    ∃ es, t.written current = s.written current ++ es
      ∧ Mirrors files t s.Cached current l es

/-- An entry, and then the others. -/
theorem Mirrored.cons {l rest : Listing} {kinds : Kind → Prop}
    {entry : Nat → MksfsM Unit} {names : List (List UInt8)} {reals : List Nat}
    (hentry : Walks files entry kinds names reals) (hkeeps : Keeps entry)
    (h : Mirrored files rest)
    (htakes : Takes (readEntries l) name entry (readEntries rest))
    (hname : hidden name ≠ true)
    (hmirrors : ∀ ⦃current s s₁⦄, Kept files s → Sound ∅ s →
      s.Cached current → (s.nodes current).din.type = sfsTypeDir →
      entry current s = some ((), s₁) → ∃ i,
        s₁.written current = s.written current ++ [(name, i)]
        ∧ ∀ t es, Evolves current s₁ t → Mirrors files t s.Cached current rest es →
          Mirrors files t s.Cached current l ((name, i) :: es)) :
    Mirrored files l := by
  intro current s t hkept hsound hcurrent hdir hrun
  obtain ⟨s₁, hrun, hrest⟩ := htakes.add hname hrun
  obtain ⟨hsound₁, hev⟩ := hkeeps hsound hcurrent hrun
  have hw := hentry hkept hsound hcurrent hdir hrun
  have hcurrent₁ := hev.cached _ hcurrent
  obtain ⟨i, hwritten, hmirrors⟩ := hmirrors hkept hsound hcurrent hdir hrun
  obtain ⟨es, hes, hrest'⟩ := h hw.kept hsound₁ hcurrent₁
    ((hev.type _ hcurrent).trans hdir) hrest
  refine ⟨(name, i) :: es, ?_, hmirrors t es
    (readEntries_spec rest hsound₁ hcurrent₁ hrest).2
    (hrest'.evolves (Evolves.refl current t) hcurrent₁ hev.cached)⟩
  rw [hes, hwritten, List.append_assoc]
  rfl

/-- The directories that are made list what is on the host. -/
theorem readEntries_mirrored {l : Listing} (h : Within files l) :
    Mirrored files l := by
  induction l using Listing.shown_rec with
  | done =>
      intro current s t _ _ _ _ hrun
      obtain ⟨-, rfl⟩ := Call.pure_eq_some.1 hrun
      exact ⟨[], (List.append_nil _).symm, rfl⟩
  | hides l rest hhides ihrest =>
      intro current s t hkept hsound hcurrent hdir hrun
      obtain ⟨es, hes, hmirrors⟩ := ihrest (h.behind hhides) hkept hsound hcurrent
        hdir (hhides.run hrun)
      exact ⟨es, hes, (hhides.mirrors ..).2 hmirrors⟩
  | dir name real entries rest hname ihentries ihrest =>
      obtain ⟨hentries, hrest, hstring, hout⟩ := h.ofDir hname
      have hkeeps : Keeps fun current =>
          addDir (readEntries entries) current name real :=
        fun _ _ _ hsound hcurrent hrun =>
          addDir_spec (readEntries_spec entries) hsound hcurrent hrun
      refine Mirrored.cons (fun current s t hkept hsound hcurrent hdir hrun =>
        addDir_walked (readEntries_spec entries) (readEntries_walks hentries)
          hkept hsound hcurrent hdir hstring hout hrun) hkeeps (ihrest hrest)
        takes_dir hname ?_
      intro current s s₁ hkept hsound hcurrent hdir hrun
      obtain ⟨n, s₃, s₄, hopened, h₃, hloop, h₄, henter⟩ :=
        addDir_run (readEntries_spec entries) hkept hsound hcurrent hout hrun
      have hself₃ : s₃.Cached n := (hopened.cached n).2 (Or.inr rfl)
      have hcurrent₃ := hopened.evolves.cached _ hcurrent
      have hne : n ≠ current := fun heq => hopened.new (heq ▸ hcurrent)
      obtain ⟨below, hbelow, hmirrors⟩ :=
        ihentries hentries hopened.kept h₃ hself₃ hopened.type hloop
      obtain ⟨-, hev₄⟩ := readEntries_spec entries h₃ hself₃ hloop
      have hself₄ := hev₄.cached _ hself₃
      refine ⟨n, ?_, fun t es hev hrest => ?_⟩
      · rw [henter.written_self, hev₄.written _ hcurrent₃ hne.symm,
          hopened.writtenParent]
      · rw [Mirrors, if_neg hname]
        have hev' := henter.evolves.trans hev
        refine ⟨n, below, es, rfl, hev'.cached _ hself₄, hopened.new, ?_, ?_,
          ?_, hrest⟩
        · rw [hev'.type _ hself₄, hev₄.type _ hself₃, hopened.type]
        · rw [hev'.written _ hself₄ hne, hbelow, hopened.written]
          rfl
        · exact hmirrors.evolves hev' hcurrent₃ hopened.evolves.cached
  | file name real data rest hname ihrest =>
      obtain ⟨hrest, hstring, hin⟩ := h.ofFile hname
      refine Mirrored.cons (fun current s t hkept hsound hcurrent _ hrun =>
        addFile_walked hkept hsound hcurrent hstring hin hrun) addFile_keeps
        (ihrest hrest) takes_file hname ?_
      intro current s s₁ _ hsound hcurrent _ hrun
      obtain ⟨-, -, i, hi, hreal, hwritten⟩ := addFile_spec hsound hcurrent hrun
      refine ⟨i, hwritten, fun t es hev hrest => ?_⟩
      rw [Mirrors, if_neg hname]
      exact ⟨i, es, rfl, hev.cached _ hi, (hev.real _ hi).trans hreal, hin, hrest⟩
  | link name real target rest hname ihrest =>
      obtain ⟨hrest, hstring, hout⟩ := h.ofLink hname
      refine Mirrored.cons (fun current s t hkept hsound hcurrent _ hrun =>
        addLink_walked hkept hsound hcurrent hstring hout hrun) addLink_keeps
        (ihrest hrest) takes_link hname ?_
      intro current s s₁ _ hsound hcurrent _ hrun
      obtain ⟨-, -, i, hi, htype, hwritten⟩ := addLink_spec hsound hcurrent hrun
      refine ⟨i, hwritten, fun t es hev hrest => ?_⟩
      rw [Mirrors, if_neg hname]
      exact ⟨i, es, rfl, hev.cached _ hi, (hev.type _ hi).trans htype, hrest⟩

end Ucore.Mksfs
