/-
mksfs on its way through a directory: what it has written stays, and the
invariant holds wherever it is.

An image grows into a later one while a directory is read (`Evolves`): no block
that is given out is written again, and of the inodes that are cached only the
directory gets entries.
-/
import Ucore.Mksfs.Proofs.Sound

namespace Ucore.Mksfs

open Sfs

variable {s t u : Image} {held : Finset Nat} {b c i j k n r file size real : Nat}
  {current parent : Nat} {name data : List UInt8} {bs bs' : List Nat}

-- =========================================================== growing

/-- A later image. -/
structure Evolves (c : Nat) (s t : Image) : Prop where
  next_le : s.nextIno ≤ t.nextIno
  info : t.super.info = s.super.info
  ninos : t.ninos = s.ninos
  disk : ∀ b, b < s.nextIno → t.disk b = s.disk b
  cached : ∀ i, s.Cached i → t.Cached i
  real : ∀ i, s.Cached i → (t.nodes i).real = (s.nodes i).real
  type : ∀ i, s.Cached i → (t.nodes i).din.type = (s.nodes i).din.type
  stored : ∀ i, s.Cached i → i ≠ c → t.stored i = s.stored i
  written : ∀ i, s.Cached i → i ≠ c → t.written i = s.written i
  size : ∀ i, s.Cached i → i ≠ c →
    (t.nodes i).din.size = (s.nodes i).din.size

namespace Evolves

theorem refl (c : Nat) (s : Image) : Evolves c s s :=
  ⟨Nat.le_refl _, rfl, rfl, fun _ _ => rfl, fun _ hi => hi, fun _ _ => rfl,
    fun _ _ => rfl, fun _ _ _ => rfl, fun _ _ _ => rfl, fun _ _ _ => rfl⟩

/-- Work on an inode after work on another, which it is, or it is new. -/
theorem after (h : Evolves parent s t) (h' : Evolves c t u)
    (hother : ∀ i, s.Cached i → i ≠ parent → i ≠ c) : Evolves parent s u where
  next_le := Nat.le_trans h.next_le h'.next_le
  info := h'.info.trans h.info
  ninos := h'.ninos.trans h.ninos
  disk b hb := (h'.disk b (Nat.lt_of_lt_of_le hb h.next_le)).trans (h.disk b hb)
  cached i hi := h'.cached i (h.cached i hi)
  real i hi := (h'.real i (h.cached i hi)).trans (h.real i hi)
  type i hi := (h'.type i (h.cached i hi)).trans (h.type i hi)
  stored i hi hne :=
    (h'.stored i (h.cached i hi) (hother i hi hne)).trans (h.stored i hi hne)
  written i hi hne :=
    (h'.written i (h.cached i hi) (hother i hi hne)).trans (h.written i hi hne)
  size i hi hne :=
    (h'.size i (h.cached i hi) (hother i hi hne)).trans (h.size i hi hne)

theorem trans (h : Evolves c s t) (h' : Evolves c t u) : Evolves c s u :=
  h.after h' fun _ _ hne => hne

/-- Work on an inode that is new leaves the old ones alone. -/
theorem inside (h : Evolves parent s t) (hnew : ¬ s.Cached c)
    (h' : Evolves c t u) : Evolves parent s u :=
  h.after h' fun _ hi _ heq => hnew (heq ▸ hi)

end Evolves

theorem Entered.evolves (h : Entered current file name s t) :
    Evolves current s t where
  next_le := Nat.le_of_lt h.next_lt
  info := h.info
  ninos := h.ninos
  disk := h.disk
  cached i hi := by
    rw [cached_congr h.inodes]
    exact hi
  real i _ := h.real i
  type i _ := h.type i
  stored i _ hne := by
    rw [h.stored]
    exact Function.update_of_ne hne ..
  written i _ hne := by
    rw [h.written]
    exact Function.update_of_ne hne ..
  size i _ hne := h.size i hne

/-- The directory has an entry more. -/
theorem Entered.written_self (h : Entered current file name s t) :
    t.written current = s.written current ++ [(name, file)] := by
  rw [h.written, Function.update_self]

-- ====================================================== the contents

/-- Block `i` of a file with these contents. -/
def fileBlock (data : List UInt8) (i k : Nat) : UInt8 :=
  ((data.drop (i * sfsBlksize)).take sfsBlksize).getD k 0

namespace Extended

theorem refl (hlt : (s.nodes file).din.size < 2 ^ 32) :
    Extended file [] 0 s s := by
  refine ⟨Nat.le_refl _, rfl, rfl, rfl, fun _ _ => rfl, rfl, ?_, fun _ => rfl,
    fun _ => rfl, fun _ => rfl, fun _ _ => rfl, ?_⟩
  · rw [List.append_nil, Function.update_eq_self]
  · exact (Nat.mod_eq_of_lt hlt).symm

theorem trans (h : Extended file bs n s t) (h' : Extended file bs' k t u) :
    Extended file (bs ++ bs') (n + k) s u where
  next_le := Nat.le_trans h.next_le h'.next_le
  info := h'.info.trans h.info
  ninos := h'.ninos.trans h.ninos
  inodes := h'.inodes.trans h.inodes
  disk b hb := (h'.disk b (Nat.lt_of_lt_of_le hb h.next_le)).trans (h.disk b hb)
  written := h'.written.trans h.written
  stored := by
    rw [h'.stored, h.stored, Function.update_self, Function.update_idem,
      List.append_assoc]
  real j := (h'.real j).trans (h.real j)
  type j := (h'.type j).trans (h.type j)
  nlinks j := (h'.nlinks j).trans (h.nlinks j)
  sizes j hj := (h'.sizes j hj).trans (h.sizes j hj)
  size := by rw [h'.size, h.size, Nat.mod_add_mod, Nat.add_assoc]

theorem evolves (h : Extended file bs n s t) : Evolves file s t where
  next_le := h.next_le
  info := h.info
  ninos := h.ninos
  disk := h.disk
  cached i hi := by
    rw [cached_congr h.inodes]
    exact hi
  real i _ := h.real i
  type i _ := h.type i
  stored i _ hne := by
    rw [h.stored]
    exact Function.update_of_ne hne ..
  written i _ _ := by rw [h.written]
  size i _ hne := h.sizes i hne

end Extended

theorem fileBlock_eq (data : List UInt8) (i : Nat) :
    (fun k => if k < ((data.drop (i * sfsBlksize)).take sfsBlksize).length
      then ((data.drop (i * sfsBlksize)).take sfsBlksize).getD k 0 else 0)
      = fileBlock data i := by
  funext k
  unfold fileBlock
  split
  case isTrue => rfl
  case isFalse hge =>
      rw [List.getD_eq_default _ _ (Nat.not_lt.1 hge)]

/-- The bytes of `n + 1` blocks are those of the first one and of the others. -/
theorem readLength (data : List UInt8) (n i : Nat) :
    ((data.drop (i * sfsBlksize)).take ((n + 1) * sfsBlksize)).length
      = ((data.drop (i * sfsBlksize)).take sfsBlksize).length
        + ((data.drop ((i + 1) * sfsBlksize)).take (n * sfsBlksize)).length := by
  simp only [List.length_take, List.length_drop, Nat.add_mul, Nat.one_mul]
  omega

/-- The blocks of a file are written one after the other. -/
theorem readFile_spec : ∀ {n i last : Nat} {s : Image}, Sound held s →
    s.Cached file → readFile file data n i last s = some ((), t) →
    Sound held t ∧ ∃ bs, Extended file bs
        ((data.drop (i * sfsBlksize)).take (n * sfsBlksize)).length s t
      ∧ List.Forall₂ (fun k b => t.disk b = fileBlock data k ∧ b < t.nextIno)
        (List.range' i n) bs := by
  intro n
  induction n with
  | zero =>
      intro i last s h hfile hrun
      rw [readFile, Call.pure_eq_some] at hrun
      obtain ⟨-, rfl⟩ := hrun
      rw [Nat.zero_mul, List.take_zero]
      exact ⟨h, [], Extended.refl (h.fits hfile).size, List.Forall₂.nil⟩
  | succ n ih =>
      intro i last s h hfile hrun
      rw [readFile] at hrun
      rw [Call.bind_assert_eq_some] at hrun
      obtain ⟨-, hrun⟩ := hrun
      obtain ⟨b, s₁, halloc, hrun⟩ := Call.bind_eq_some.1 hrun
      obtain ⟨_, s₂, hwrite, hrun⟩ := Call.bind_eq_some.1 hrun
      obtain ⟨_, s₃, happend, hrest⟩ := Call.bind_eq_some.1 hrun
      obtain ⟨h₃, hext, hlt, hblock⟩ := storeBlock_spec h hfile
        (Call.bind_eq_some.2 ⟨b, s₁, halloc,
          Call.bind_eq_some.2 ⟨(), s₂, hwrite, happend⟩⟩)
      have hfile₃ : s₃.Cached file := hext.evolves.cached file hfile
      obtain ⟨hsound, bs, hext', hbs⟩ := ih h₃ hfile₃ hrest
      rw [readLength data n i]
      refine ⟨hsound, _, hext.trans hext', List.Forall₂.cons ⟨?_, ?_⟩ hbs⟩
      · rw [hext'.disk _ hlt, hblock, fileBlock_eq]
      · exact Nat.lt_of_lt_of_le hlt hext'.next_le

theorem openFile_spec (h : Sound held s) (hfile : s.Cached file)
    (hrun : openFile file data s = some ((), t)) :
    Sound held t ∧ ∃ bs, Extended file bs data.length s t
      ∧ List.Forall₂ (fun k b => t.disk b = fileBlock data k ∧ b < t.nextIno)
        (List.range (roundupDiv data.length sfsBlksize)) bs := by
  have hall : ((data.drop (0 * sfsBlksize)).take
      (roundupDiv data.length sfsBlksize * sfsBlksize)).length = data.length := by
    rw [Nat.zero_mul, List.drop_zero, List.take_of_length_le]
    unfold roundupDiv sfsBlksize
    omega
  have hread := readFile_spec h hfile hrun
  rw [hall] at hread
  rw [List.range_eq_range']
  exact hread

theorem openLink_spec (h : Sound held s) (hfile : s.Cached file)
    (hrun : openLink file data s = some ((), t)) :
    Sound held t ∧ ∃ b, Extended file [b] data.length s t := by
  unfold openLink at hrun
  obtain ⟨b, s₁, halloc, hrun⟩ := Call.bind_eq_some.1 hrun
  split at hrun
  case isTrue => exact absurd hrun Call.panic_ne_some
  case isFalse =>
      obtain ⟨hsound, hext, -, -⟩ := storeBlock_spec h hfile
        (Call.bind_eq_some.2 ⟨b, s₁, halloc, hrun⟩)
      exact ⟨hsound, _, hext⟩

-- ======================================================== the inodes

/-- An inode that is found is cached, and known by its number. -/
theorem searchCacheInode_run {o : Option Nat} (h : Sound held s)
    (hrun : searchCacheInode real s = some (o, t)) : t = s
      ∧ (∀ i, o = some i → s.Cached i ∧ (s.nodes i).real = real)
      ∧ (o = none → ∀ i, s.Cached i → (s.nodes i).real ≠ real) := by
  unfold searchCacheInode at hrun
  rw [Call.bind_get_eq, Call.pure_eq_some] at hrun
  obtain ⟨ho, ht⟩ := hrun
  refine ⟨ht, fun i hi => ?_, ?_⟩
  · rw [hi] at ho
    have hreal := List.find?_some ho.symm
    exact ⟨⟨_, List.mem_of_find?_eq_some ho.symm⟩, of_decide_eq_true hreal⟩
  · rintro hnone i ⟨k, hk⟩ hreal
    have hbucket := h.inodes hk
    rw [hreal] at hbucket
    rw [hbucket] at hk
    rw [hnone] at ho
    exact List.find?_eq_none.1 ho.symm i hk (decide_eq_true hreal)

/-- What `alloc_cache_inode` does to an image. -/
structure Allocated (i real type : Nat) (s t : Image) : Prop where
  number : i = s.nextIno
  new : ¬ s.Cached i
  cached : ∀ j, t.Cached j ↔ s.Cached j ∨ j = i
  next : t.nextIno = s.nextIno + 1
  info : t.super.info = s.super.info
  ninos : t.ninos = s.ninos
  disk : t.disk = s.disk
  written : t.written = s.written
  stored : t.stored = s.stored
  node : t.nodes i = newInode real type
  nodes : ∀ j, j ≠ i → t.nodes j = s.nodes j

theorem allocCacheInode_spec {type : Nat} (h : Sound held s)
    (htype : type < 256 ^ 2)
    (hrun : allocCacheInode real 0 type s = some (i, t)) :
    Sound held t ∧ Allocated i real type s t := by
  obtain ⟨hlt, hi, ht⟩ := allocCacheInode_run hrun
  have hnew : ¬ s.Cached i := by
    rw [hi]
    exact fun hin => h.placed.nowhere s.nextIno hin .self rfl
  rw [ht]
  rw [hi] at hnew ⊢
  exact ⟨(h.taken hlt).withInode h.placed.notMem htype, rfl, hnew,
    fun j => cached_withInode, rfl, rfl, rfl, rfl, rfl, rfl, withInode_node,
    fun j hj => withInode_node_ne hj⟩

theorem Allocated.evolves {type : Nat} (h : Allocated i real type s t) :
    Evolves c s t := by
  have hne : ∀ j, s.Cached j → j ≠ i := fun j hj heq => h.new (heq ▸ hj)
  refine ⟨?_, h.info, h.ninos, fun b _ => by rw [h.disk], fun j hj => ?_,
    fun j hj => ?_, fun j hj => ?_, fun j _ _ => by rw [h.stored],
    fun j _ _ => by rw [h.written], fun j hj _ => ?_⟩
  · rw [h.next]
    exact Nat.le_succ _
  · exact (h.cached j).2 (Or.inl hj)
  · rw [h.nodes j (hne j hj)]
  · rw [h.nodes j (hne j hj)]
  · rw [h.nodes j (hne j hj)]

theorem Allocated.self {type : Nat} (h : Allocated i real type s t) :
    t.Cached i := (h.cached i).2 (Or.inr rfl)

-- ======================================================= directories

/-- A loop over the entries of a directory keeps the invariant. -/
def Keeps (loop : Nat → MksfsM Unit) : Prop :=
  ∀ ⦃current s t⦄, Sound ∅ s → s.Cached current →
    loop current s = some ((), t) → Sound ∅ t ∧ Evolves current s t

theorem addFile_spec (h : Sound held s) (hcurrent : s.Cached current)
    (hrun : addFile current name real data s = some ((), t)) :
    Sound held t ∧ Evolves current s t ∧ ∃ file, t.Cached file
      ∧ (t.nodes file).real = real
      ∧ t.written current = s.written current ++ [(name, file)] := by
  unfold addFile at hrun
  obtain ⟨o, s₁, hsearch, hrun⟩ := Call.bind_eq_some.1 hrun
  obtain ⟨hs₁, hfound, -⟩ := searchCacheInode_run h hsearch
  rw [hs₁] at hrun
  cases o with
  | some file =>
      obtain ⟨hfile, hreal⟩ := hfound file rfl
      obtain ⟨hsound, henter⟩ := addEntry_spec h hcurrent hfile hrun
      exact ⟨hsound, henter.evolves, file, henter.evolves.cached _ hfile,
        (henter.real file).trans hreal, henter.written_self⟩
  | none =>
      obtain ⟨file, s₂, halloc, hrun⟩ := Call.bind_eq_some.1 hrun
      obtain ⟨h₂, halloc⟩ := allocCacheInode_spec h (by decide) halloc
      obtain ⟨_, s₃, hopen, hrun⟩ := Call.bind_eq_some.1 hrun
      obtain ⟨h₃, bs, hext, -⟩ := openFile_spec h₂ halloc.self hopen
      have hevolves : Evolves current s s₃ :=
        halloc.evolves.inside halloc.new hext.evolves
      have hfile := hext.evolves.cached _ halloc.self
      obtain ⟨hsound, henter⟩ :=
        addEntry_spec h₃ (hevolves.cached _ hcurrent) hfile hrun
      refine ⟨hsound, hevolves.trans henter.evolves, file,
        henter.evolves.cached _ hfile, ?_, ?_⟩
      · rw [henter.real, hext.real, halloc.node]
        rfl
      · rw [henter.written_self, hext.written, halloc.written]

theorem addLink_spec (h : Sound held s) (hcurrent : s.Cached current)
    (hrun : addLink current name real data s = some ((), t)) :
    Sound held t ∧ Evolves current s t ∧ ∃ file, t.Cached file
      ∧ (t.nodes file).din.type = sfsTypeLink
      ∧ t.written current = s.written current ++ [(name, file)] := by
  unfold addLink at hrun
  obtain ⟨file, s₂, halloc, hrun⟩ := Call.bind_eq_some.1 hrun
  obtain ⟨h₂, halloc⟩ := allocCacheInode_spec h (by decide) halloc
  obtain ⟨_, s₃, hopen, hrun⟩ := Call.bind_eq_some.1 hrun
  obtain ⟨h₃, bs, hext⟩ := openLink_spec h₂ halloc.self hopen
  have hevolves : Evolves current s s₃ :=
    halloc.evolves.inside halloc.new hext.evolves
  have hfile := hext.evolves.cached _ halloc.self
  obtain ⟨hsound, henter⟩ :=
    addEntry_spec h₃ (hevolves.cached _ hcurrent) hfile hrun
  refine ⟨hsound, hevolves.trans henter.evolves, file,
    henter.evolves.cached _ hfile, ?_, ?_⟩
  · rw [henter.type, hext.type, halloc.node]
    rfl
  · rw [henter.written_self, hext.written, halloc.written]

theorem openDir_spec {loop : Nat → MksfsM Unit} (hloop : Keeps loop)
    (h : Sound ∅ s) (hcurrent : s.Cached current) (hparent : s.Cached parent)
    (hrun : openDir loop current parent s = some ((), t)) :
    Sound ∅ t ∧ ∃ s₁ s₂, Entered current current [dot] s s₁ ∧ Sound ∅ s₁
      ∧ Entered current parent [dot, dot] s₁ s₂ ∧ Sound ∅ s₂
      ∧ loop current s₂ = some ((), t) ∧ Evolves current s₂ t := by
  unfold openDir at hrun
  obtain ⟨_, s₁, hdot, hrun⟩ := Call.bind_eq_some.1 hrun
  obtain ⟨h₁, henter₁⟩ := addEntry_spec h hcurrent hcurrent hdot
  obtain ⟨_, s₂, hdotdot, hrest⟩ := Call.bind_eq_some.1 hrun
  have hcached := henter₁.evolves.cached
  obtain ⟨h₂, henter₂⟩ := addEntry_spec h₁ (hcached _ hcurrent)
    (hcached _ hparent) hdotdot
  obtain ⟨hsound, hevolves⟩ := hloop h₂
    (henter₂.evolves.cached _ (hcached _ hcurrent)) hrest
  exact ⟨hsound, s₁, s₂, henter₁, h₁, henter₂, h₂, hrest, hevolves⟩

/-- How a directory is added: it gets its two entries, its own ones, and is
entered. -/
theorem addDir_steps {loop : Nat → MksfsM Unit} (hloop : Keeps loop)
    (h : Sound ∅ s) (hparent : s.Cached parent)
    (hrun : addDir loop parent name real s = some ((), t)) :
    ∃ n s₁ s₂ s₃ s₄, (Sound ∅ s₁ ∧ Allocated n real sfsTypeDir s s₁)
      ∧ (Sound ∅ s₂ ∧ Entered n n [dot] s₁ s₂)
      ∧ (Sound ∅ s₃ ∧ Entered n parent [dot, dot] s₂ s₃)
      ∧ (Sound ∅ s₄ ∧ Evolves n s₃ s₄ ∧ loop n s₃ = some ((), s₄))
      ∧ Sound ∅ t ∧ Entered parent n name s₄ t := by
  unfold addDir at hrun
  obtain ⟨o, s₀, hsearch, hrest⟩ := Call.bind_eq_some.1 hrun
  obtain ⟨hs₀, -, -⟩ := searchCacheInode_run h hsearch
  rw [hs₀, Call.bind_assert_eq_some] at hrest
  obtain ⟨-, hrun⟩ := hrest
  obtain ⟨n, s₁, halloc, hrun⟩ := Call.bind_eq_some.1 hrun
  obtain ⟨h₁, halloc⟩ := allocCacheInode_spec h (by decide) halloc
  obtain ⟨_, s₄, hopen, hrun⟩ := Call.bind_eq_some.1 hrun
  have hparent₁ : s₁.Cached parent := (halloc.cached parent).2 (Or.inl hparent)
  obtain ⟨h₄, s₂, s₃, hdot, h₂, hdotdot, h₃, hloop', hev⟩ :=
    openDir_spec hloop h₁ halloc.self hparent₁ hopen
  have hin := (hdot.evolves.trans hdotdot.evolves).trans hev
  have hparent₄ : s₄.Cached parent := hin.cached _ hparent₁
  obtain ⟨hsound, henter⟩ := addEntry_spec h₄ hparent₄
    (hin.cached _ halloc.self) hrun
  exact ⟨n, s₁, s₂, s₃, s₄, ⟨h₁, halloc⟩, ⟨h₂, hdot⟩, ⟨h₃, hdotdot⟩,
    ⟨h₄, hev, hloop'⟩, hsound, henter⟩

theorem addDir_spec {loop : Nat → MksfsM Unit} (hloop : Keeps loop)
    (h : Sound ∅ s) (hparent : s.Cached parent)
    (hrun : addDir loop parent name real s = some ((), t)) :
    Sound ∅ t ∧ Evolves parent s t := by
  obtain ⟨n, s₁, s₂, s₃, s₄, ⟨-, halloc⟩, ⟨-, hdot⟩, ⟨-, hdotdot⟩, ⟨-, hev, -⟩,
    hsound, henter⟩ := addDir_steps hloop h hparent hrun
  have hin := (hdot.evolves.trans hdotdot.evolves).trans hev
  exact ⟨hsound, (halloc.evolves.inside halloc.new hin).trans henter.evolves⟩

theorem addFile_keeps : Keeps fun current => addFile current name real data := by
  intro current s t h hcurrent hrun
  obtain ⟨hsound, hevolves, -⟩ := addFile_spec h hcurrent hrun
  exact ⟨hsound, hevolves⟩

theorem addLink_keeps : Keeps fun current => addLink current name real data := by
  intro current s t h hcurrent hrun
  obtain ⟨hsound, hevolves, -⟩ := addLink_spec h hcurrent hrun
  exact ⟨hsound, hevolves⟩

/-- A name is gone through, and then the others. -/
theorem Keeps.cons {entry rest : Nat → MksfsM Unit} (hentry : Keeps entry)
    (hrest : Keeps rest) : Keeps fun current =>
      withName name (entry current) >>= fun _ => rest current := by
  intro current s t h hcurrent hrun
  obtain ⟨_, s₁, hname, hrest'⟩ := Call.bind_eq_some.1 hrun
  obtain ⟨h₁, hevolves⟩ : Sound ∅ s₁ ∧ Evolves current s s₁ := by
    unfold withName at hname
    split at hname
    case isTrue =>
        obtain ⟨-, rfl⟩ := Call.pure_eq_some.1 hname
        exact ⟨h, Evolves.refl current s₁⟩
    case isFalse =>
        split at hname
        case isTrue => exact absurd hname Call.panic_ne_some
        case isFalse => exact hentry h hcurrent hname
  obtain ⟨hsound, hevolves'⟩ := hrest h₁ (hevolves.cached _ hcurrent) hrest'
  exact ⟨hsound, hevolves.trans hevolves'⟩

theorem pure_keeps : Keeps fun _ => return () := by
  intro current s t h _ hrun
  obtain ⟨-, rfl⟩ := Call.pure_eq_some.1 hrun
  exact ⟨h, Evolves.refl current t⟩

/-- The invariant holds through a directory, and through all below it. -/
theorem readEntries_spec (l : Listing) : Keeps (readEntries l) := by
  induction l with
  | done => exact pure_keeps
  | dir name real entries rest ihentries ihrest =>
      have hdir : Keeps fun current =>
          addDir (readEntries entries) current name real :=
        fun _ _ _ h hcurrent hrun => addDir_spec ihentries h hcurrent hrun
      exact hdir.cons ihrest
  | file name real data rest ihrest => exact addFile_keeps.cons ihrest
  | link name real target rest ihrest => exact addLink_keeps.cons ihrest
  | other name rest ihrest => exact pure_keeps.cons ihrest

end Ucore.Mksfs
