/-
What `vfs_open` does to the files of the volume. Up to `vop_truncate` it takes
and drops references only (`LooksUp`); that call empties the inode it is on,
and changes no other.
-/
import Ucore.Sfs.Proofs.Settled
import Ucore.Vfs.Proofs.Path

namespace Ucore.Vfs

open Sfs
open Call (Relates)

variable {s s' t : Vfs} {path path' name : List UInt8} {node : Inode}
  {flags : BitVec 32} {files : Finset Nat} {i k : Nat}

-- ================================================ calls that look up

/-- A call on a directory tree looks inodes up only. -/
def LooksUp (files : Finset Nat) (s s' : Vfs) : Prop :=
  Settled files s.sfs → Looks files s.sfs s'.sfs

instance : Std.Refl (LooksUp files) := ⟨fun _ h => h.refl⟩

instance : IsTrans Vfs (LooksUp files) :=
  ⟨fun _ _ _ h h' hs => (h hs).trans (h' (h hs).settled)⟩

theorem onSfs_looks {α : Type} {m : SfsM α}
    (h : ∀ {fs a fs'}, Settled files fs → m fs = some (a, fs') →
      Looks files fs fs') : Relates (LooksUp files) (onSfs m) := by
  intro s a s' hrun hsettled
  obtain ⟨fs', hm, rfl⟩ := onSfs_run hrun
  exact h hsettled hm

/-- A call that changes nothing. -/
theorem looks_of_same {α : Type} {m : VfsM α} (h : Relates Eq m) :
    Relates (LooksUp files) m := by
  intro s a s' hrun hsettled
  rw [← h s a s' hrun]
  exact hsettled.refl

theorem getSin_same : Relates Eq (onSfs (getSin i)) := by
  intro s node s' hrun
  obtain ⟨fs', hget, rfl⟩ := onSfs_run hrun
  rw [(getSin_run hget).2]

theorem inodeCheck_same : Relates Eq (inodeCheck node) := by
  have hcount : Relates Eq (inodeRefCount node) := by
    cases node with
    | sfs ino => exact getSin_same.bind fun _ => .pure
    | dev id => exact Relates.get.bind fun _ => .pure
  exact hcount.bind fun _ => Relates.get.bind fun _ =>
    Relates.assert.bind fun _ => .assert

/-- A store to what is not of the volume. -/
theorem modify_looks {f : Vfs → Vfs} (h : ∀ s, (f s).sfs = s.sfs) :
    Relates (LooksUp files) (Call.modify f) := by
  apply Relates.modify
  intro s hsettled
  rw [h]
  exact hsettled.refl

theorem vopRefInc_looks : Relates (LooksUp files) (vopRefInc node) := by
  cases node with
  | sfs ino => exact (onSfs_looks fun h => h.refInc).bind fun _ => .pure
  | dev id => exact modify_looks fun _ => rfl

theorem vopRefDec_looks : Relates (LooksUp files) (vopRefDec node) := by
  cases node with
  | sfs ino =>
      exact (looks_of_same getSin_same).bind fun _ =>
        Relates.get.bind fun _ => Relates.assert.bind fun _ =>
        onSfs_looks fun h => h.refDec
  | dev id =>
      exact Relates.get.bind fun _ => Relates.assert.bind fun _ =>
        modify_looks fun _ => rfl

theorem vopLookup_looks : Relates (LooksUp files) (vopLookup node path) := by
  refine (looks_of_same inodeCheck_same).bind fun _ => ?_
  cases node with
  | sfs ino =>
      exact (looks_of_same getSin_same).bind fun _ =>
        Relates.assert.bind fun _ =>
        (onSfs_looks fun h hrun => (h.lookup hrun).1).bind fun _ => .pure
  | dev id => exact .ite .pure (vopRefInc_looks.bind fun _ => .pure)

theorem getNode_looks {o : Option Inode} :
    Relates (LooksUp files) (getNode o) := by
  cases o with
  | none => exact .pure
  | some node => exact vopRefInc_looks.bind fun _ => .pure

theorem fsopGetRoot_looks : Relates (LooksUp files) fsopGetRoot :=
  (onSfs_looks fun h => h.load h.sound.inv.root).bind fun _ => .pure

theorem vfsGetCurdir_looks : Relates (LooksUp files) vfsGetCurdir :=
  Relates.get.bind fun _ => getNode_looks

theorem vfsGetRoot_looks : Relates (LooksUp files) (vfsGetRoot name) := by
  refine Relates.get.bind fun s => ?_
  split
  case h_1 => exact .pure
  case h_2 vdev _ =>
      apply Relates.ite (fsopGetRoot_looks.bind fun _ => .pure)
      apply Relates.ite
      · exact Relates.ofOption.bind fun _ =>
          vopRefInc_looks.bind fun _ => .pure
      · exact .pure

theorem getDevice_looks : Relates (LooksUp files) (getDevice path) := by
  unfold getDevice
  apply Relates.ite (vfsGetCurdir_looks.bind fun _ => .pure)
  apply Relates.ite (vfsGetRoot_looks.bind fun _ => .pure)
  apply Relates.ite ((Relates.get.bind fun _ => getNode_looks).bind
    fun _ => .pure)
  refine Relates.assert.bind fun _ => vfsGetCurdir_looks.bind fun r => ?_
  cases r with
  | error e => exact .pure
  | ok node =>
      exact Relates.assert.bind fun _ => fsopGetRoot_looks.bind fun _ =>
        vopRefDec_looks.bind fun _ => .pure

/-- `vfs_lookup` looks inodes up only. -/
theorem vfsLookup_looks : Relates (LooksUp files) (vfsLookup path) := by
  apply getDevice_looks.bind
  rintro ⟨buf, r⟩
  cases r with
  | error e => exact .pure
  | ok a =>
      exact Relates.ite (vopLookup_looks.bind fun _ =>
        vopRefDec_looks.bind fun _ => .pure) .pure

theorem vfsLookupParent_looks :
    Relates (LooksUp files) (vfsLookupParent path) := by
  apply getDevice_looks.bind
  rintro ⟨buf, r⟩
  cases r with
  | error e => exact .pure
  | ok a => exact .pure

-- ================================================== names and inodes

/-- `vop_lookup` in an inode of the volume. -/
theorem vopLookup_names {r : Except Err Inode} {dir : Nat}
    (h : Settled files s.sfs)
    (hrun : vopLookup (.sfs dir) name s = some (r, s')) :
    dir ∈ files ∧ r = (resolve s.sfs dir [name]).map .sfs := by
  obtain ⟨_, t, hcheck, hrun⟩ := Call.bind_eq_some.1 hrun
  obtain rfl := inodeCheck_same _ _ _ hcheck
  obtain ⟨sin, t, hget, hrun⟩ := Call.bind_eq_some.1 hrun
  obtain ⟨fs, hnode, -⟩ := onSfs_run hget
  obtain rfl := getSin_same _ _ _ hget
  simp only [Call.bind_eq_some, Call.assert_eq_some, Call.pure_eq_some] at hrun
  obtain ⟨_, _, ⟨-, rfl⟩, ret, u, hlookup, rfl, rfl⟩ := hrun
  obtain ⟨fs', hsfs, -⟩ := onSfs_run hlookup
  obtain ⟨-, rfl⟩ := h.lookup hsfs
  exact ⟨(h.sound.inv.loaded (getSin_run hnode).1).1, rfl⟩

/-- `vfs_lookup` finds the inode that the path names. -/
theorem vfsLookup_names {r : Except Err Inode} (h : Settled files s.sfs)
    (hstr : 0 ∉ path) (hrun : vfsLookup path s = some ((path', r), s')) :
    r = .ok (.sfs i) ↔ Names s path i := by
  obtain ⟨⟨buf, ret⟩, t, hget, hrun⟩ := Call.bind_eq_some.1 hrun
  obtain ⟨-, hfound, -⟩ := getDevice_run hstr hget
  have hlooks := getDevice_looks _ _ _ hget h
  unfold Names
  cases ret with
  | error e =>
      obtain ⟨hout, -⟩ := Call.pure_eq_some.1 hrun
      obtain ⟨-, rfl⟩ := Prod.mk.inj hout
      have hstart : startNode s (parse path).1 = .error e := hfound
      rw [hstart]
      exact ⟨(fun h => by cases h), by simp⟩
  | ok a =>
      obtain ⟨pos, node⟩ := a
      obtain ⟨hstart, hname⟩ := hfound
      rw [hstart]
      dsimp only at hrun
      rw [hname] at hrun
      split at hrun
      case isFalse hempty =>
          rw [not_not] at hempty
          obtain ⟨hout, -⟩ := Call.pure_eq_some.1 hrun
          obtain ⟨-, rfl⟩ := Prod.mk.inj hout
          rw [hempty]
          constructor
          · intro heq
            exact ⟨i, heq, rfl⟩
          · intro hnames
            obtain ⟨dir, heq, hres⟩ := hnames
            cases hres
            exact heq
      case isTrue hne =>
          have hfilter : [(parse path).2].filter (· ≠ [])
              = [(parse path).2] := by
            simp [hne]
          rw [hfilter]
          obtain ⟨ret, t₁, hlookup, hrun⟩ := Call.bind_eq_some.1 hrun
          obtain ⟨_, t₂, -, hpure⟩ := Call.bind_eq_some.1 hrun
          obtain ⟨hout, -⟩ := Call.pure_eq_some.1 hpure
          obtain ⟨-, rfl⟩ := Prod.mk.inj hout
          cases node with
          | dev id =>
              obtain ⟨_, t₃, -, hdev⟩ := Call.bind_eq_some.1 hlookup
              dsimp only at hdev
              unfold devLookup at hdev
              rw [if_pos hne] at hdev
              obtain ⟨rfl, -⟩ := Call.pure_eq_some.1 hdev
              exact ⟨(fun h => by cases h), by simp⟩
          | sfs dir =>
              obtain ⟨hdir, rfl⟩ := vopLookup_names hlooks.settled hlookup
              have hsame := hlooks.untouched.sameData h.sound.inv hdir
              rw [hsame.resolve fun htype => h.tree.slots dir hdir htype]
              constructor
              · intro heq
                refine ⟨dir, rfl, ?_⟩
                cases hres : resolve s.sfs dir [(parse path).2] with
                | error e =>
                    rw [hres] at heq
                    cases heq
                | ok j =>
                    rw [hres] at heq
                    cases heq
                    rfl
              · intro hnames
                obtain ⟨dir', heq, hres⟩ := hnames
                cases heq
                rw [hres]
                rfl

-- =========================================================== opening

/-- Opening an inode of the volume; a regular file is opened. -/
theorem vopOpen_run {r : Except Err Unit}
    (hrun : vopOpen node flags s = some (r, s')) : s' = s
      ∧ ∀ i, node = .sfs i → (inodeOf s.sfs i).type ≠ sfsTypeDir →
        r = .ok () := by
  obtain ⟨_, t, hcheck, hrun⟩ := Call.bind_eq_some.1 hrun
  obtain rfl := inodeCheck_same _ _ _ hcheck
  cases node with
  | dev id =>
      obtain ⟨t, u, hget, hrun⟩ := Call.bind_eq_some.1 hrun
      obtain ⟨-, hsame⟩ := Call.get_eq_some.1 hget
      rw [hsame] at hrun
      exact ⟨(Call.pure_eq_some.1 hrun).2, fun _ h => by cases h⟩
  | sfs ino =>
      obtain ⟨sin, t, hget, hrun⟩ := Call.bind_eq_some.1 hrun
      obtain ⟨fs, hnode, -⟩ := onSfs_run hget
      have hdin := inodeOf_loaded (getSin_run hnode).1
      have hsame := getSin_same _ _ _ hget
      rw [← hsame] at hrun
      split at hrun
      case isTrue hdir =>
          refine ⟨(Call.pure_eq_some.1 hrun).2, fun i heq hother => ?_⟩
          cases heq
          rw [hdin] at hother
          exact absurd hdir hother
      case isFalse =>
          obtain ⟨rfl, rfl⟩ := Call.pure_eq_some.1 hrun
          exact ⟨rfl, fun _ _ _ => rfl⟩

/-- An open that neither truncates nor creates looks inodes up, as does one
of another inode than a file; the others empty the file. -/
theorem vfsOpenNode_run {r : Except Err Inode} (h : Settled files s.sfs)
    (hrun : vfsOpenNode flags node s = some (r, s')) :
    Looks files s.sfs s'.sfs
        ∧ (given flags oTrunc ∨ given flags oCreat → ∀ i, node = .sfs i →
          (inodeOf s.sfs i).type ≠ sfsTypeFile)
      ∨ (given flags oTrunc ∨ given flags oCreat)
        ∧ ∃ i, node = .sfs i ∧ Emptied files i s.sfs s'.sfs := by
  obtain ⟨ret, t, hopen, hrun⟩ := Call.bind_eq_some.1 hrun
  obtain ⟨rfl, hfile⟩ := vopOpen_run hopen
  cases ret with
  | error e =>
      obtain ⟨_, t₁, hdec, hpure⟩ := Call.bind_eq_some.1 hrun
      obtain ⟨-, rfl⟩ := Call.pure_eq_some.1 hpure
      refine Or.inl ⟨vopRefDec_looks _ _ _ hdec h, fun _ i heq htype => ?_⟩
      have hok := hfile i heq (by rw [htype]; decide)
      cases hok
  | ok _ =>
      obtain ⟨_, t₁, hinc, hrun⟩ := Call.bind_eq_some.1 hrun
      obtain rfl := Call.modify_eq_some.1 hinc
      split at hrun
      case isFalse hkeeps =>
          obtain ⟨-, rfl⟩ := Call.pure_eq_some.1 hrun
          exact Or.inl ⟨h.refl, fun hgiven => absurd hgiven hkeeps⟩
      case isTrue hgiven =>
          refine Or.inr ⟨hgiven, ?_⟩
          obtain ⟨ret, t₂, htrunc, hrun⟩ := Call.bind_eq_some.1 hrun
          obtain ⟨_, t₃, hcheck, htrunc⟩ := Call.bind_eq_some.1 htrunc
          have hsame := inodeCheck_same _ _ _ hcheck
          rw [← hsame] at htrunc
          cases node with
          | dev id => exact absurd htrunc Call.panic_ne_some
          | sfs ino =>
              obtain ⟨fs', hvop, rfl⟩ := onSfs_run htrunc
              obtain ⟨rfl, hemptied⟩ := h.empty hvop
              obtain ⟨-, rfl⟩ := Call.pure_eq_some.1 hrun
              exact ⟨ino, rfl, hemptied⟩

/-- A regular file stays the one it was before a lookup, unless it is opened
to truncate or to create and has bytes. -/
theorem vfsOpenNode_keeps {fs : SfsFs} {r : Except Err Inode}
    (h : Settled files s.sfs) (hi : i ∈ files)
    (hfile : (inodeOf fs i).type = sfsTypeFile) (hsame : SameData fs s.sfs i)
    (hrun : vfsOpenNode flags node s = some (r, s')) :
    SameFile fs s'.sfs i ↔ ¬ ((given flags oTrunc ∨ given flags oCreat)
      ∧ node = .sfs i ∧ (inodeOf fs i).size ≠ 0) := by
  rcases vfsOpenNode_run h hrun with ⟨hlooks, hother⟩
    | ⟨hgiven, j, hnode, hemptied⟩
  · constructor
    · intro _ hcond
      apply hother hcond.1 i hcond.2.1
      rw [hsame.inode]
      exact hfile
    · exact fun _ => (hsame.trans (hlooks.sameData h hi)).file
  · by_cases heq : i = j
    · subst heq
      constructor
      · intro hkept hcond
        apply hcond.2.2
        rw [← hkept.inode]
        exact hemptied.size
      · intro hno
        by_cases hsize : (inodeOf fs i).size = 0
        · rw [hemptied.same (hsame.inode.symm ▸ hsize)]
          exact hsame.file
        · exact absurd ⟨hgiven, hnode, hsize⟩ hno
    · constructor
      · intro _ hcond
        rw [hnode] at hcond
        cases hcond.2.1
        exact heq rfl
      · exact fun _ => (hsame.trans (hemptied.resized.others i hi heq)).file

/-- An open that is not to truncate leaves the size, the blocks and the bytes
of a regular file as they are, unless it creates the file that is there
already and has bytes. -/
theorem open_keeps {r : Except Err Inode}
    (himage : Consistent ⟨s.sfs, files⟩) (htree : Tree ⟨s.sfs, files⟩)
    (hi : i ∈ files) (hfile : (inodeOf s.sfs i).type = sfsTypeFile)
    (hstr : 0 ∉ path) (hflags : ¬ given flags oTrunc ∨ ¬ CanWrite flags)
    (hrun : vfsOpen path flags s = some (r, s')) :
    SameFile s.sfs s'.sfs i ↔ ¬ (Recreates flags ∧ Names s path i
      ∧ (inodeOf s.sfs i).size ≠ 0) := by
  have h := himage.settled htree
  -- where the inode is not opened, or not to create, nothing changes
  have hkept : ∀ {t : Vfs}, Looks files s.sfs t.sfs →
      ¬ (Recreates flags ∧ Names s path i) →
      (SameFile s.sfs t.sfs i ↔ ¬ (Recreates flags ∧ Names s path i
        ∧ (inodeOf s.sfs i).size ≠ 0)) := by
    intro t hlooks hno
    refine ⟨fun _ hcond => hno ⟨hcond.1, hcond.2.1⟩, fun _ => ?_⟩
    exact (hlooks.sameData h hi).file
  unfold vfsOpen vfsOpenWith at hrun
  split at hrun
  case isTrue hmode =>
      obtain ⟨-, rfl⟩ := Call.pure_eq_some.1 hrun
      refine hkept h.refl fun hboth => ?_
      rcases hboth.1.2.2.2 with hread | hwrite
      · exact absurd hread hmode.1
      · exact absurd hwrite hmode.2
  case isFalse hmode =>
      split at hrun
      case isTrue htrunc =>
          obtain ⟨-, rfl⟩ := Call.pure_eq_some.1 hrun
          exact hkept h.refl fun hboth => absurd htrunc.1 hboth.1.2.2.1
      case isFalse htrunc =>
          have hnotrunc : ¬ given flags oTrunc := by
            intro hgiven
            rcases hflags with hno | hread
            · exact hno hgiven
            · exact htrunc ⟨hgiven, hread⟩
          obtain ⟨⟨buf, ret⟩, t, hlookup, hrun⟩ := Call.bind_eq_some.1 hrun
          have hlooks := vfsLookup_looks _ _ _ hlookup h
          have hnames : ret = .ok (.sfs i) ↔ Names s path i :=
            vfsLookup_names h hstr hlookup
          cases ret with
          | error e =>
              have hno : ¬ (Recreates flags ∧ Names s path i) := by
                intro hboth
                cases hnames.2 hboth.2
              dsimp only at hrun
              split at hrun
              case isFalse =>
                  obtain ⟨-, rfl⟩ := Call.pure_eq_some.1 hrun
                  exact hkept hlooks hno
              case isTrue =>
                  obtain ⟨⟨buf', ret⟩, t₁, hparent, hrun⟩ :=
                    Call.bind_eq_some.1 hrun
                  have hlooks₁ := hlooks.trans
                    (vfsLookupParent_looks _ _ _ hparent hlooks.settled)
                  cases ret with
                  | error e =>
                      obtain ⟨-, rfl⟩ := Call.pure_eq_some.1 hrun
                      exact hkept hlooks₁ hno
                  | ok a =>
                      -- there is no operation to create a file with
                      obtain ⟨_, _, hcreate, -⟩ := Call.bind_eq_some.1 hrun
                      exact absurd hcreate Call.panic_ne_some
          | ok node =>
              dsimp only at hrun
              split at hrun
              case isTrue hexcl =>
                  obtain ⟨-, rfl⟩ := Call.pure_eq_some.1 hrun
                  refine hkept hlooks fun hboth => ?_
                  exact hboth.1.2.1 (of_decide_eq_true hexcl.1)
              case isFalse hexcl =>
                  rw [vfsOpenNode_keeps hlooks.settled hi hfile
                    (hlooks.sameData h hi) hrun]
                  apply not_congr
                  constructor
                  · rintro ⟨hgiven, hnode, hsize⟩
                    have hcreat := hgiven.resolve_left hnotrunc
                    refine ⟨⟨hcreat, fun hyes => ?_, hnotrunc, ?_⟩,
                      hnames.1 (congrArg Except.ok hnode), hsize⟩
                    · exact hexcl ⟨decide_eq_true hyes, hcreat⟩
                    · by_contra hbad
                      exact hmode (not_or.1 hbad)
                  · rintro ⟨hcreates, hyes, hsize⟩
                    exact ⟨Or.inr hcreates.1, Except.ok.inj (hnames.2 hyes),
                      hsize⟩

/-- What an open returns, with the size, the blocks and a byte of file 5. -/
def openView (path : List UInt8) (flags : BitVec 32) (s : Vfs) :
    Option (Except Err Inode × List Nat) :=
  (vfsOpen path flags s).map fun a =>
    (a.1, [(inodeOf a.2.sfs 5).size, (inodeOf a.2.sfs 5).blocks,
      (fileByte a.2.sfs 5 0).toNat])

theorem openView_run {o : Except Err Inode × List Nat}
    (h : openView path flags s = some o) : ∃ s',
      vfsOpen path flags s = some (o.1, s') ∧ (inodeOf s'.sfs 5).size
        = o.2.headD 0 := by
  obtain ⟨⟨r, s'⟩, hrun, rfl⟩ := Option.map_eq_some_iff.1 h
  exact ⟨s', hrun, rfl⟩

/-- The file `f` of the tree is opened to read, and stays as it is. -/
theorem open_keeps_read : ∃ s', vfsOpen [0x66] oRdonly treeVfs
    = some (.ok (.sfs 5), s') ∧ SameFile treeFs s'.sfs 5 := by
  have hview : openView [0x66] oRdonly treeVfs
      = some (.ok (.sfs 5), [100, 1, 255]) := by
    decide +kernel
  obtain ⟨s', hrun, -⟩ := openView_run hview
  have hfile : (inodeOf treeVfs.sfs 5).type = sfsTypeFile := by
    decide +kernel
  refine ⟨s', hrun, (open_keeps treeVolume_consistent treeVolume_tree
    (by decide) hfile (by decide) (Or.inl (by decide)) hrun).2 ?_⟩
  intro hcond
  exact absurd hcond.1.1 (by decide)

/-- To read the same file, or to write it, with `O_CREAT` empties it. -/
theorem open_empties :
    (Consistent ⟨treeVfs.sfs, {1, 3, 5}⟩ ∧ Tree ⟨treeVfs.sfs, {1, 3, 5}⟩
      ∧ (inodeOf treeFs 5).type = sfsTypeFile
      ∧ (inodeOf treeFs 5).size = 100)
    ∧ (∃ s', vfsOpen [0x66] (oRdonly ||| oCreat) treeVfs
        = some (.ok (.sfs 5), s') ∧ ¬ SameFile treeFs s'.sfs 5)
    ∧ ∃ s', vfsOpen [0x66] (oWronly ||| oCreat) treeVfs
        = some (.ok (.sfs 5), s') ∧ ¬ SameFile treeFs s'.sfs 5 := by
  have hfile : (inodeOf treeFs 5).type = sfsTypeFile
      ∧ (inodeOf treeFs 5).size = 100 := by
    decide +kernel
  have hread : openView [0x66] (oRdonly ||| oCreat) treeVfs
      = some (.ok (.sfs 5), [0, 0, 0]) := by
    decide +kernel
  have hwrite : openView [0x66] (oWronly ||| oCreat) treeVfs
      = some (.ok (.sfs 5), [0, 0, 0]) := by
    decide +kernel
  have hchanged : ∀ {s' : Vfs}, (inodeOf s'.sfs 5).size = 0 →
      ¬ SameFile treeFs s'.sfs 5 := by
    intro s' hzero hsame
    rw [hsame.inode, hfile.2] at hzero
    cases hzero
  obtain ⟨s₁, hrun₁, hsize₁⟩ := openView_run hread
  obtain ⟨s₂, hrun₂, hsize₂⟩ := openView_run hwrite
  exact ⟨⟨treeVolume_consistent, treeVolume_tree, hfile⟩,
    ⟨s₁, hrun₁, hchanged hsize₁⟩, s₂, hrun₂, hchanged hsize₂⟩

end Ucore.Vfs
