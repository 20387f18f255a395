/-
Sizes and blocks over runs of calls on open files.

Each call that succeeds leaves a directory tree one. It leaves the regular
files the blocks for their sizes as well, but for a write from a position
that is past the end of its file, and not in the last block of it: as the
loop of `sfs_io_nolock` is open, the size is set to the position and no block
is taken.
-/
import Ucore.Vfs.File
import Ucore.Vfs.Proofs.Open

namespace Ucore.Vfs

open Sfs
open Call (Relates)

variable {s s' t : Files} {files : Finset Nat} {path : List UInt8}
  {flags : BitVec 32} {fd pos whence : Int} {k len : Nat} {write : Bool}
  {node : Inode} {call : FileCall} {calls : List FileCall}

-- ========================================================= relations

/-- A call on open files looks inodes up only. -/
def FileLooks (files : Finset Nat) (s s' : Files) : Prop :=
  LooksUp files s.vfs s'.vfs

instance : Std.Refl (FileLooks files) := ⟨fun _ h => h.refl⟩

instance : IsTrans Files (FileLooks files) :=
  ⟨fun _ _ _ h h' hs => (h hs).trans (h' (h hs).settled)⟩

/-- A call on open files keeps the tree, and its sizes and blocks. -/
def FileSteady (files : Finset Nat) (s s' : Files) : Prop :=
  Settled files s.vfs.sfs → Steady files s.vfs.sfs s'.vfs.sfs

instance : Std.Refl (FileSteady files) := ⟨fun _ h => h.refl.steady⟩

instance : IsTrans Files (FileSteady files) :=
  ⟨fun _ _ _ h h' hs => (h hs).trans (h' (h hs).settled)⟩

theorem steady_of_looks {α : Type} {m : FileM α}
    (h : Relates (FileLooks files) m) : Relates (FileSteady files) m :=
  fun s a s' hrun hs => (h s a s' hrun hs).steady

theorem onVfs_run {α : Type} {m : VfsM α} {a : α}
    (hrun : onVfs m s = some (a, s')) :
    ∃ v, m s.vfs = some (a, v) ∧ s' = { s with vfs := v } := by
  obtain ⟨⟨a', v⟩, hm, heq⟩ := Option.map_eq_some_iff.1 hrun
  cases heq
  exact ⟨v, hm, rfl⟩

theorem onVfs_looks {α : Type} {m : VfsM α} (h : Relates (LooksUp files) m) :
    Relates (FileLooks files) (onVfs m) := by
  intro s a s' hrun
  obtain ⟨v, hm, rfl⟩ := onVfs_run hrun
  exact h _ _ _ hm

-- ==================================================== the file table

theorem getFile_run {file : File} (hrun : getFile k s = some (file, s')) :
    file = s.fdArray k ∧ s' = s := by
  obtain ⟨t, u, hget, hpure⟩ := Call.bind_eq_some.1 hrun
  obtain ⟨rfl, rfl⟩ := Call.get_eq_some.1 hget
  obtain ⟨rfl, rfl⟩ := Call.pure_eq_some.1 hpure
  exact ⟨rfl, rfl⟩

theorem getFile_looks : Relates (FileLooks files) (getFile k) :=
  Relates.get.bind fun _ => .pure

theorem setFile_looks {file : File} :
    Relates (FileLooks files) (setFile k file) :=
  .modify fun _ h => h.refl

theorem vopOpenInc_looks : Relates (LooksUp files) (vopOpenInc node) :=
  modify_looks fun _ => rfl

theorem vfsClose_looks : Relates (LooksUp files) (vfsClose node) := by
  have hclose : Relates (LooksUp files) (vopClose node) := by
    refine (looks_of_same inodeCheck_same).bind fun _ => ?_
    cases node with
    | sfs ino => exact onSfs_looks fun h => h.fsync
    | dev id => exact .pure
  have hdec : Relates (LooksUp files) (vopOpenDec node) := by
    refine Relates.get.bind fun s => Relates.assert.bind fun _ => ?_
    apply Relates.bind
    · exact modify_looks fun _ => rfl
    · exact fun _ => .ite hclose .pure
  exact hdec.bind fun _ => vopRefDec_looks

theorem fdArrayFound_looks : Relates (FileLooks files) (fdArrayFound k) :=
  getFile_looks.bind fun _ => Relates.assert.bind fun _ =>
    setFile_looks.bind fun _ => .pure

theorem fdArrayAlloc_looks : Relates (FileLooks files) (fdArrayAlloc fd) := by
  refine Relates.get.bind fun s => ?_
  apply Relates.ite
  · split
    case h_1 => exact fdArrayFound_looks
    case h_2 => exact .pure
  · exact .ite (.ite fdArrayFound_looks .pure) .pure

theorem fdArrayFree_looks : Relates (FileLooks files) (fdArrayFree k) := by
  have hstatus : Relates (FileLooks files) (do
      let file ← getFile k
      setFile k { file with status := .none }) :=
    getFile_looks.bind fun _ => setFile_looks
  refine getFile_looks.bind fun file => Relates.assert.bind fun _ =>
    Relates.assert.bind fun _ => .ite ?_ hstatus
  exact Relates.ofOption.bind fun _ => (onVfs_looks vfsClose_looks).bind
    fun _ => hstatus

theorem fdArrayAcquire_looks : Relates (FileLooks files) (fdArrayAcquire k) :=
  getFile_looks.bind fun _ => Relates.assert.bind fun _ => setFile_looks

theorem fdArrayRelease_looks :
    Relates (FileLooks files) (fdArrayRelease k) :=
  getFile_looks.bind fun _ => Relates.assert.bind fun _ =>
    Relates.assert.bind fun _ => setFile_looks.bind fun _ =>
    .ite fdArrayFree_looks .pure

theorem fdArrayOpen_looks : Relates (FileLooks files) (fdArrayOpen k) :=
  getFile_looks.bind fun _ => Relates.assert.bind fun _ => setFile_looks

theorem fdArrayClose_looks : Relates (FileLooks files) (fdArrayClose k) :=
  getFile_looks.bind fun _ => Relates.assert.bind fun _ =>
    Relates.assert.bind fun _ => setFile_looks.bind fun _ =>
    .ite fdArrayFree_looks .pure

theorem fdArrayDup_looks {k' : Nat} :
    Relates (FileLooks files) (fdArrayDup k k') :=
  getFile_looks.bind fun _ => getFile_looks.bind fun _ =>
    Relates.assert.bind fun _ => Relates.ofOption.bind fun _ =>
    (onVfs_looks vopRefInc_looks).bind fun _ =>
    (onVfs_looks vopOpenInc_looks).bind fun _ =>
    setFile_looks.bind fun _ => fdArrayOpen_looks

theorem fd2file_run {r : Except Err Nat} (hrun : fd2file fd s = some (r, s')) :
    s' = s ∧ ∀ k, r = .ok k → k = fd.toNat := by
  obtain ⟨t, u, hget, hrest⟩ := Call.bind_eq_some.1 hrun
  obtain ⟨-, hsame⟩ := Call.get_eq_some.1 hget
  rw [hsame] at hrest
  split at hrest
  case isTrue =>
      obtain ⟨rfl, rfl⟩ := Call.pure_eq_some.1 hrest
      refine ⟨rfl, fun k heq => ?_⟩
      cases heq
      rfl
  case isFalse =>
      obtain ⟨rfl, rfl⟩ := Call.pure_eq_some.1 hrest
      exact ⟨rfl, fun _ h => by cases h⟩

theorem fd2file_looks : Relates (FileLooks files) (fd2file fd) :=
  Relates.get.bind fun _ => .ite .pure .pure

theorem vopFstat_looks : Relates (FileLooks files) (vopFstat node) := by
  refine (onVfs_looks (looks_of_same inodeCheck_same)).bind fun _ => ?_
  cases node with
  | sfs ino =>
      exact (onVfs_looks (looks_of_same getSin_same)).bind fun _ =>
        Relates.assert.bind fun _ => .pure
  | dev id => exact Relates.get.bind fun _ => .pure

theorem fileOpened_looks : Relates (FileLooks files)
    (fileOpened k flags node pos) :=
  getFile_looks.bind fun _ => setFile_looks.bind fun _ =>
    fdArrayOpen_looks.bind fun _ => .pure

theorem fileClose_looks : Relates (FileLooks files) (fileClose fd) := by
  refine fd2file_looks.bind fun r => ?_
  cases r with
  | error e => exact .pure
  | ok k => exact fdArrayClose_looks.bind fun _ => .pure

theorem fileDup_looks {fd' : Int} :
    Relates (FileLooks files) (fileDup fd fd') := by
  refine fd2file_looks.bind fun r => ?_
  cases r with
  | error e => exact .pure
  | ok k =>
      refine fdArrayAlloc_looks.bind fun r => ?_
      cases r with
      | error e => exact .pure
      | ok k' =>
          exact fdArrayDup_looks.bind fun _ => getFile_looks.bind
            fun _ => .pure

-- =========================================================== opening

theorem vfsOpen_steady {v v' : Vfs} {r : Except Err Inode}
    (h : Settled files v.sfs) (hrun : vfsOpen path flags v = some (r, v')) :
    Steady files v.sfs v'.sfs := by
  unfold vfsOpen vfsOpenWith at hrun
  split at hrun
  case isTrue =>
      obtain ⟨-, rfl⟩ := Call.pure_eq_some.1 hrun
      exact h.refl.steady
  case isFalse =>
      split at hrun
      case isTrue =>
          obtain ⟨-, rfl⟩ := Call.pure_eq_some.1 hrun
          exact h.refl.steady
      case isFalse =>
          obtain ⟨⟨buf, ret⟩, t, hlookup, hrun⟩ := Call.bind_eq_some.1 hrun
          have hlooks := vfsLookup_looks _ _ _ hlookup h
          cases ret with
          | error e =>
              dsimp only at hrun
              split at hrun
              case isFalse =>
                  obtain ⟨-, rfl⟩ := Call.pure_eq_some.1 hrun
                  exact hlooks.steady
              case isTrue =>
                  obtain ⟨⟨buf', ret⟩, t₁, hparent, hrun⟩ :=
                    Call.bind_eq_some.1 hrun
                  cases ret with
                  | error e =>
                      obtain ⟨-, rfl⟩ := Call.pure_eq_some.1 hrun
                      exact (hlooks.trans (vfsLookupParent_looks _ _ _ hparent
                        hlooks.settled)).steady
                  | ok a =>
                      obtain ⟨_, _, hcreate, -⟩ := Call.bind_eq_some.1 hrun
                      exact absurd hcreate Call.panic_ne_some
          | ok node =>
              dsimp only at hrun
              split at hrun
              case isTrue =>
                  obtain ⟨-, rfl⟩ := Call.pure_eq_some.1 hrun
                  exact hlooks.steady
              case isFalse =>
                  rcases vfsOpenNode_run hlooks.settled hrun with
                    ⟨hlooks₁, -⟩ | ⟨-, j, -, hemptied⟩
                  · exact (hlooks.trans hlooks₁).steady
                  · exact hlooks.steady.trans
                      (hemptied.resized.steady hemptied.agrees)

theorem fileOpen_steady :
    Relates (FileSteady files) (fileOpen path flags) := by
  have hopen : Relates (FileSteady files) (onVfs (vfsOpen path flags)) := by
    intro s r s' hrun h
    obtain ⟨v, hm, rfl⟩ := onVfs_run hrun
    exact vfsOpen_steady h hm
  unfold fileOpen
  refine Relates.ite .pure ?_
  refine (steady_of_looks fdArrayAlloc_looks).bind fun r => ?_
  cases r with
  | error e => exact .pure
  | ok k =>
      refine hopen.bind fun r => ?_
      cases r with
      | error e =>
          exact (steady_of_looks fdArrayFree_looks).bind fun _ => .pure
      | ok node =>
          apply Relates.ite _ (steady_of_looks fileOpened_looks)
          refine (steady_of_looks vopFstat_looks).bind fun r => ?_
          cases r with
          | error e =>
              exact (steady_of_looks (onVfs_looks vfsClose_looks)).bind
                fun _ => (steady_of_looks fdArrayFree_looks).bind
                fun _ => .pure
          | ok size => exact steady_of_looks fileOpened_looks

-- ========================================================= positions

theorem seekPos_looks {file : File} :
    Relates (FileLooks files) (seekPos file pos whence) := by
  unfold seekPos
  refine Relates.ite .pure (.ite .pure (.ite ?_ .pure))
  refine Relates.ofOption.bind fun node => vopFstat_looks.bind fun r => ?_
  cases r with
  | error e => exact .pure
  | ok size => exact .pure

theorem vopTryseek_steady {u : Unit} (h : Settled files s.vfs.sfs)
    (hrun : vopTryseek node pos s = some (.ok u, s')) :
    Steady files s.vfs.sfs s'.vfs.sfs := by
  obtain ⟨_, t, hcheck, hrun⟩ := Call.bind_eq_some.1 hrun
  have hlooks := onVfs_looks (looks_of_same inodeCheck_same) _ _ _ hcheck h
  cases node with
  | sfs ino =>
      obtain ⟨v, hvfs, rfl⟩ := onVfs_run hrun
      obtain ⟨fs, hseek, rfl⟩ := onSfs_run hvfs
      exact hlooks.steady.trans (hlooks.settled.tryseek hseek)
  | dev id =>
      obtain ⟨_, _, hget, hrun⟩ := Call.bind_eq_some.1 hrun
      obtain ⟨-, hsame⟩ := Call.get_eq_some.1 hget
      rw [hsame] at hrun
      obtain ⟨-, rfl⟩ := Call.pure_eq_some.1 hrun
      exact hlooks.steady

/-- A seek that does not fail. -/
theorem fileSeek_steady {u : Unit} (h : Settled files s.vfs.sfs)
    (hrun : fileSeek fd pos whence s = some (.ok u, s')) :
    Steady files s.vfs.sfs s'.vfs.sfs := by
  obtain ⟨ret, t, hfd, hrun⟩ := Call.bind_eq_some.1 hrun
  have hlooks := fd2file_looks _ _ _ hfd h
  cases ret with
  | error e =>
      obtain ⟨hno, -⟩ := Call.pure_eq_some.1 hrun
      cases hno
  | ok k =>
      obtain ⟨_, t₁, hacquire, hrun⟩ := Call.bind_eq_some.1 hrun
      obtain ⟨file, t₂, hfile, hrun⟩ := Call.bind_eq_some.1 hrun
      obtain ⟨ret, t₃, hpos, hrun⟩ := Call.bind_eq_some.1 hrun
      have hlooks₁ := hlooks.trans
        (fdArrayAcquire_looks _ _ _ hacquire hlooks.settled)
      have hlooks₂ := hlooks₁.trans
        (getFile_looks _ _ _ hfile hlooks₁.settled)
      have hlooks₃ := hlooks₂.trans
        (seekPos_looks _ _ _ hpos hlooks₂.settled)
      cases ret with
      | error e =>
          obtain ⟨_, _, -, hpure⟩ := Call.bind_eq_some.1 hrun
          obtain ⟨hno, -⟩ := Call.pure_eq_some.1 hpure
          cases hno
      | ok pos' =>
          obtain ⟨node, t₄, hnode, hrun⟩ := Call.bind_eq_some.1 hrun
          obtain ⟨-, hsame⟩ := Call.ofOption_eq_some.1 hnode
          rw [hsame] at hrun
          obtain ⟨ret, t₅, hseek, hrun⟩ := Call.bind_eq_some.1 hrun
          -- the position is set or not, and the file released
          have hrest : ∀ {t₆ : Files}, FileLooks files t₅ t₆ →
              (fdArrayRelease k >>= fun _ => pure ret) t₆ = some (.ok u, s') →
              Steady files s.vfs.sfs s'.vfs.sfs := by
            intro t₆ hset hrest
            obtain ⟨_, t₇, hrelease, hpure⟩ := Call.bind_eq_some.1 hrest
            obtain ⟨hret, rfl⟩ := Call.pure_eq_some.1 hpure
            rw [← hret] at hseek
            have hsteady := hlooks₃.steady.trans
              (vopTryseek_steady hlooks₃.settled hseek)
            have hlooks₆ := hset hsteady.settled
            exact hsteady.trans (hlooks₆.trans (fdArrayRelease_looks _ _ _
              hrelease hlooks₆.settled)).steady
          split at hrun
          case isTrue =>
              obtain ⟨file', t₆, hget, hrun⟩ := Call.bind_eq_some.1 hrun
              obtain ⟨_, t₇, hset, hrun⟩ := Call.bind_eq_some.1 hrun
              have hget' : FileLooks files t₅ t₆ := getFile_looks _ _ _ hget
              have hset' : FileLooks files t₆ t₇ := setFile_looks _ _ _ hset
              exact hrest (trans_of (FileLooks files) hget' hset') hrun
          case isFalse => exact hrest (refl_of (FileLooks files) t₅) hrun

-- ======================================================= moving data

/-- A read or a write that does not fail gets to `vop_read` or `vop_write`
with the inode and the position of its file. -/
theorem fileReadWrite_run (files : Finset Nat) {u : Nat} {n : Nat}
    (hrun : fileReadWrite write fd len s = some ((.ok u, n), s')) :
    ∃ node t t' r, (s.fdArray fd.toNat).node = some node ∧ t.vfs = s.vfs
      ∧ vopReadWrite node (s.fdArray fd.toNat).pos len write t = some (r, t')
      ∧ FileLooks files t' s' := by
  obtain ⟨ret, t, hfd, hrun⟩ := Call.bind_eq_some.1 hrun
  obtain ⟨hsame, hindex⟩ := fd2file_run hfd
  rw [hsame] at hrun
  cases ret with
  | error e =>
      obtain ⟨hno, -⟩ := Call.pure_eq_some.1 hrun
      cases hno
  | ok k =>
      obtain rfl := hindex k rfl
      obtain ⟨file, t₁, hget, hrun⟩ := Call.bind_eq_some.1 hrun
      obtain ⟨hfile, hsame⟩ := getFile_run hget
      rw [hsame] at hrun
      by_cases hmode : (if write then file.writable else file.readable) = false
      · rw [if_pos hmode] at hrun
        obtain ⟨hno, -⟩ := Call.pure_eq_some.1 hrun
        cases hno
      · rw [if_neg hmode] at hrun
        obtain ⟨_, t₂, hacquire, hrun⟩ := Call.bind_eq_some.1 hrun
        have hvfs : t₂.vfs = s.vfs := by
          obtain ⟨_, t₃, hget, hacquire⟩ := Call.bind_eq_some.1 hacquire
          obtain ⟨-, hsame⟩ := getFile_run hget
          rw [hsame] at hacquire
          obtain ⟨_, t₄, hassert, hset⟩ := Call.bind_eq_some.1 hacquire
          obtain ⟨-, hsame⟩ := Call.assert_eq_some.1 hassert
          rw [hsame] at hset
          obtain rfl := Call.modify_eq_some.1 hset
          rfl
        obtain ⟨node, t₃, hnode, hrun⟩ := Call.bind_eq_some.1 hrun
        obtain ⟨hnode, hsame⟩ := Call.ofOption_eq_some.1 hnode
        rw [hsame] at hrun
        obtain ⟨r, t₄, hio, hrun⟩ := Call.bind_eq_some.1 hrun
        rw [hfile] at hnode hio
        refine ⟨node, t₂, t₄, r, hnode, hvfs, hio, ?_⟩
        have hrest : Relates (FileLooks files) (do
            fdArrayRelease fd.toNat
            return (r.1, r.2)) :=
          fdArrayRelease_looks.bind fun _ => .pure
        have hpos : Relates (FileLooks files) (do
            let file ← getFile fd.toNat
            if file.status = .opened then
              setFile fd.toNat { file with pos := file.pos + r.2 }
            fdArrayRelease fd.toNat
            return (r.1, r.2)) :=
          getFile_looks.bind fun _ =>
            .ite (setFile_looks.bind fun _ => hrest) hrest
        exact hpos _ _ _ hrun
/-- The data of a device is no file's; that of a file is moved as
`Settled.io` says. -/
theorem vopReadWrite_sizes {r : Except Err Nat × Nat}
    (h : Settled files s.vfs.sfs)
    (hrun : vopReadWrite node pos len write s = some (r, s')) :
    Settled files s'.vfs.sfs ∧ (SizesAgree ⟨s.vfs.sfs, files⟩ →
      (SizesAgree ⟨s'.vfs.sfs, files⟩ ↔ ¬ ∃ i, node = .sfs i
        ∧ Stretches s.vfs.sfs i pos len write
        ∧ roundupDiv pos.toNat sfsBlksize
          ≠ roundupDiv (inodeOf s.vfs.sfs i).size sfsBlksize)) := by
  obtain ⟨_, t, hcheck, hrun⟩ := Call.bind_eq_some.1 hrun
  obtain ⟨v, hcheck, ht⟩ := onVfs_run hcheck
  have hv : s.vfs = v := inodeCheck_same _ _ _ hcheck
  have hsame : t = s := by
    rw [ht, ← hv]
  rw [hsame] at hrun
  cases node with
  | sfs ino =>
      obtain ⟨ret, t₁, hio, hpure⟩ := Call.bind_eq_some.1 hrun
      have hend : s' = t₁ := by
        cases ret with
        | error e => exact (Call.pure_eq_some.1 hpure).2
        | ok alen => exact (Call.pure_eq_some.1 hpure).2
      rw [hend]
      obtain ⟨v₁, hvfs, rfl⟩ := onVfs_run hio
      obtain ⟨fs, hsfs, rfl⟩ := onSfs_run hvfs
      obtain ⟨hsettled, hagree⟩ := h.io hsfs
      refine ⟨hsettled, fun hsizes => (hagree hsizes).trans ?_⟩
      apply not_congr
      constructor
      · exact fun hboth => ⟨ino, rfl, hboth⟩
      · intro hex
        obtain ⟨i, heq, hboth⟩ := hex
        cases heq
        exact hboth
  | dev id =>
      obtain ⟨t₁, t₂, hget, hrun⟩ := Call.bind_eq_some.1 hrun
      obtain ⟨-, hsame⟩ := Call.get_eq_some.1 hget
      rw [hsame] at hrun
      obtain ⟨-, rfl⟩ := Call.pure_eq_some.1 hrun
      exact ⟨h, fun hsizes => iff_of_true hsizes (by simp)⟩

theorem fileReadWrite_sizes {u : Nat} {n : Nat} (h : Settled files s.vfs.sfs)
    (hrun : fileReadWrite write fd len s = some ((.ok u, n), s')) :
    Settled files s'.vfs.sfs ∧ (SizesAgree ⟨s.vfs.sfs, files⟩ →
      (SizesAgree ⟨s'.vfs.sfs, files⟩ ↔ ¬ ∃ i,
        (s.fdArray fd.toNat).node = some (.sfs i)
        ∧ Stretches s.vfs.sfs i (s.fdArray fd.toNat).pos len write
        ∧ roundupDiv (s.fdArray fd.toNat).pos.toNat sfsBlksize
          ≠ roundupDiv (inodeOf s.vfs.sfs i).size sfsBlksize)) := by
  obtain ⟨node, t, t', r, hnode, hvfs, hio, hlooks⟩ :=
    fileReadWrite_run files hrun
  rw [hnode]
  obtain ⟨hsettled, hagree⟩ := vopReadWrite_sizes (hvfs.symm ▸ h) hio
  rw [hvfs] at hagree
  have hlooks' := hlooks hsettled
  refine ⟨hlooks'.settled, fun hsizes => ?_⟩
  rw [hlooks'.sizesAgree, hagree hsizes]
  simp only [Option.some.injEq]

-- ============================================================== runs

/-- What a call that succeeds keeps. -/
theorem Succeeds.sizes (h : Settled files s.vfs.sfs)
    (hcall : Succeeds s call s') : Settled files s'.vfs.sfs
      ∧ (SizesAgree ⟨s.vfs.sfs, files⟩ →
        (SizesAgree ⟨s'.vfs.sfs, files⟩ ↔ ¬ call.Overhangs s)) := by
  -- a call that is steady, and no write
  have hdone : Steady files s.vfs.sfs s'.vfs.sfs → ¬ call.Overhangs s →
      Settled files s'.vfs.sfs ∧ (SizesAgree ⟨s.vfs.sfs, files⟩ →
        (SizesAgree ⟨s'.vfs.sfs, files⟩ ↔ ¬ call.Overhangs s)) :=
    fun hsteady hno => ⟨hsteady.settled, fun hsizes =>
      iff_of_true (hsteady.sizesAgree hsizes) hno⟩
  unfold Succeeds at hcall
  cases call with
  | fileOpen path flags =>
      obtain ⟨⟨r, t⟩, hrun, heq⟩ := Option.map_eq_some_iff.1 hcall
      obtain ⟨-, rfl⟩ := Prod.mk.inj heq
      exact hdone (fileOpen_steady _ _ _ hrun h) id
  | fileClose fd =>
      obtain ⟨⟨r, t⟩, hrun, heq⟩ := Option.map_eq_some_iff.1 hcall
      obtain ⟨-, rfl⟩ := Prod.mk.inj heq
      exact hdone (fileClose_looks _ _ _ hrun h).steady id
  | fileDup fd fd' =>
      obtain ⟨⟨r, t⟩, hrun, heq⟩ := Option.map_eq_some_iff.1 hcall
      obtain ⟨-, rfl⟩ := Prod.mk.inj heq
      exact hdone (fileDup_looks _ _ _ hrun h).steady id
  | fileSeek fd pos whence =>
      obtain ⟨⟨r, t⟩, hrun, heq⟩ := Option.map_eq_some_iff.1 hcall
      obtain ⟨hok, rfl⟩ := Prod.mk.inj heq
      cases r with
      | error e => cases hok
      | ok u => exact hdone (fileSeek_steady h hrun) id
  | fileRead fd len =>
      obtain ⟨⟨⟨r, n⟩, t⟩, hrun, heq⟩ := Option.map_eq_some_iff.1 hcall
      obtain ⟨hok, rfl⟩ := Prod.mk.inj heq
      cases r with
      | error e => cases hok
      | ok u =>
          obtain ⟨hsettled, hagree⟩ := fileReadWrite_sizes h hrun
          refine ⟨hsettled, fun hsizes => iff_of_true ?_ id⟩
          rw [hagree hsizes]
          intro hex
          obtain ⟨i, -, hstretches, -⟩ := hex
          cases hstretches.1
  | fileWrite fd len =>
      obtain ⟨⟨⟨r, n⟩, t⟩, hrun, heq⟩ := Option.map_eq_some_iff.1 hcall
      obtain ⟨hok, rfl⟩ := Prod.mk.inj heq
      cases r with
      | error e => cases hok
      | ok u => exact fileReadWrite_sizes h hrun

/-- Over every run of calls that succeed: while no write is from a position
past the end of its file that takes more blocks, each regular file has the
blocks for its size; and the next call keeps this just where it is no such
write. -/
theorem sizes_agree (himage : Consistent ⟨s.vfs.sfs, files⟩)
    (htree : Tree ⟨s.vfs.sfs, files⟩) (hsizes : SizesAgree ⟨s.vfs.sfs, files⟩)
    (hrun : Run FittingCall s calls s') : SizesAgree ⟨s'.vfs.sfs, files⟩
      ∧ ∀ call s'', Succeeds s' call s'' →
        (SizesAgree ⟨s''.vfs.sfs, files⟩ ↔ ¬ call.Overhangs s') := by
  have hboth : Settled files s'.vfs.sfs
      ∧ SizesAgree ⟨s'.vfs.sfs, files⟩ := by
    refine hrun.invariant (I := fun s => Settled files s.vfs.sfs
      ∧ SizesAgree ⟨s.vfs.sfs, files⟩) (fun {s call t} hI hstep => ?_)
      ⟨himage.settled htree, hsizes⟩
    obtain ⟨hsettled, hagree⟩ := Succeeds.sizes hI.1 hstep.1
    exact ⟨hsettled, (hagree hI.2).2 hstep.2⟩
  refine ⟨hboth.2, fun call s'' hcall => ?_⟩
  exact (Succeeds.sizes hboth.1 hcall).2 hboth.2

-- ======================================================== an example

/-- The file systems of `treeVfs`, and no open file. -/
def treeFiles : Files where
  vfs := treeVfs
  fdArray k := { status := .none, readable := false, writable := false
                 fd := k, pos := 0, node := none, openCount := 0 }
  dIo _ _ _ _ := (.error .inval, 0)
  dIoReturns _ := .inl nofun
  dBlocks _ := 0
  dBlocksize _ := 0

/-- The states after calls that all succeed. -/
def execAll (s : Files) : List FileCall → Option Files
  | [] => some s
  | call :: calls =>
      match call.exec s with
      | some (true, s') => execAll s' calls
      | _ => none

theorem execAll_run {step : Files → FileCall → Files → Prop}
    (hstep : ∀ call ∈ calls, ∀ {s t}, Succeeds s call t → step s call t)
    (h : execAll s calls = some s') : Run step s calls s' := by
  induction calls generalizing s with
  | nil =>
      cases h
      exact .nil s'
  | cons call calls ih =>
      unfold execAll at h
      split at h
      case h_1 t hcall =>
          exact .cons (hstep call List.mem_cons_self hcall)
            (ih (fun call' hmem => hstep call' (List.mem_cons_of_mem _ hmem)) h)
      case h_2 => cases h

/-- The size, the block count and the type of file 5 after calls that all
succeed. -/
def sizeAfter (calls : List FileCall) : Option (Nat × Nat × Nat) :=
  (execAll treeFiles calls).map fun s =>
    ((inodeOf s.vfs.sfs 5).size, (inodeOf s.vfs.sfs 5).blocks,
      (inodeOf s.vfs.sfs 5).type)

theorem treeFiles_sizes :
    SizesAgree ⟨treeFiles.vfs.sfs, ({1, 3, 5} : Finset Nat)⟩ := by
  intro k hk hfile
  rw [show inodeOf treeFiles.vfs.sfs k = treeInode k from treeFs_inode hk]
    at hfile ⊢
  have hor := treeVolume_files.1 hk
  rcases hor with rfl | rfl | rfl
  · cases hfile
  · cases hfile
  · show 1 = roundupDiv 100 sfsBlksize
    decide

/-- The file `f` is opened, and grown by a seek. -/
theorem sizes_agree_seek : ∃ s', Run FittingCall treeFiles
      [.fileOpen [0x66] oRdwr, .fileSeek 0 5000 lseekSet] s'
    ∧ SizesAgree ⟨s'.vfs.sfs, {1, 3, 5}⟩ := by
  have hsize : sizeAfter [.fileOpen [0x66] oRdwr, .fileSeek 0 5000 lseekSet]
      = some (5000, 2, sfsTypeFile) := by
    decide +kernel
  obtain ⟨s', hexec, -⟩ := Option.map_eq_some_iff.1 hsize
  have hrun : Run FittingCall treeFiles
      [.fileOpen [0x66] oRdwr, .fileSeek 0 5000 lseekSet] s' := by
    refine execAll_run (fun call hmem s t hcall => ⟨hcall, ?_⟩) hexec
    rw [List.mem_pair] at hmem
    rcases hmem with rfl | rfl
    · exact id
    · exact id
  exact ⟨s', hrun, (sizes_agree treeVolume_consistent treeVolume_tree
    treeFiles_sizes hrun).1⟩

/-- The file is opened once more to truncate it; a write through the first
descriptor then sets its size to 5000, and it has no block. -/
theorem sizes_disagree :
    (Consistent ⟨treeFiles.vfs.sfs, {1, 3, 5}⟩
      ∧ Tree ⟨treeFiles.vfs.sfs, {1, 3, 5}⟩
      ∧ SizesAgree ⟨treeFiles.vfs.sfs, {1, 3, 5}⟩)
    ∧ ∃ s', Run Succeeds treeFiles
        [.fileOpen [0x66] oRdwr, .fileSeek 0 5000 lseekSet,
          .fileOpen [0x66] (oWronly ||| oTrunc), .fileWrite 0 1] s'
      ∧ (inodeOf s'.vfs.sfs 5).size = 5000
      ∧ (inodeOf s'.vfs.sfs 5).blocks = 0
      ∧ ¬ SizesAgree ⟨s'.vfs.sfs, {1, 3, 5}⟩ := by
  have hsize : sizeAfter [.fileOpen [0x66] oRdwr, .fileSeek 0 5000 lseekSet,
      .fileOpen [0x66] (oWronly ||| oTrunc), .fileWrite 0 1]
      = some (5000, 0, sfsTypeFile) := by
    decide +kernel
  obtain ⟨s', hexec, hpair⟩ := Option.map_eq_some_iff.1 hsize
  simp only [Prod.mk.injEq] at hpair
  obtain ⟨hsize, hblocks, hfile⟩ := hpair
  refine ⟨⟨treeVolume_consistent, treeVolume_tree, treeFiles_sizes⟩, s',
    execAll_run (fun _ _ _ _ hcall => hcall) hexec, hsize, hblocks, ?_⟩
  intro hsizes
  have hagrees : (inodeOf s'.vfs.sfs 5).blocks
      = roundupDiv (inodeOf s'.vfs.sfs 5).size sfsBlksize :=
    hsizes 5 (by simp) hfile
  rw [hsize, hblocks] at hagrees
  exact absurd hagrees (by decide)

end Ucore.Vfs
