/-
An entry of a file table that is open has a share in the counts of its inode:
one reference and one open. What the calls of file.c hand out they enter in
the table, so that beyond the shares of the entries the counts stay.
-/
import Ucore.Vfs.Proofs.Counts
import Ucore.Vfs.Proofs.File
import Mathlib.Algebra.BigOperators.Group.Finset.Basic

namespace Ucore.Vfs

open Sfs
open Call (Relates Moves Keeps)

variable {s s' t : Files} {k : Nat} {file : File} {node : Inode} {fd : Int}
  {path : List UInt8} {flags : BitVec 32} {α : Type}

-- ============================================================ shares

/-- The shares of the entries of a table. -/
def tableShare (fdArray : Nat → File) : Tally :=
  ∑ k ∈ Finset.range filesStructNentry, share (fdArray k).refers

/-- The counts beyond the shares of the entries. -/
def fileTally (s : Files) : Tally := tally s.vfs - tableShare s.fdArray

@[simp] theorem share_none : share none = 0 := add_zero 0

theorem tableShare_update (hk : k < filesStructNentry) (fdArray : Nat → File)
    (file : File) : tableShare (Function.update fdArray k file)
      = tableShare fdArray - share (fdArray k).refers + share file.refers := by
  have hmem := Finset.mem_range.2 hk
  have hrest : ∀ j ∈ (Finset.range filesStructNentry).erase k,
      share (Function.update fdArray k file j).refers
        = share (fdArray j).refers := by
    intro j hj
    rw [Function.update_of_ne (Finset.ne_of_mem_erase hj)]
  unfold tableShare
  rw [← Finset.add_sum_erase _ _ hmem, Finset.sum_congr rfl hrest,
    ← Finset.add_sum_erase _ (fun j => share (fdArray j).refers) hmem,
    Function.update_self]
  abel

/-- Entries that refer to nothing have no share. -/
theorem tableShare_zero {fdArray : Nat → File}
    (h : ∀ k < filesStructNentry, (fdArray k).refers = none) :
    tableShare fdArray = 0 := by
  refine Finset.sum_eq_zero fun k hk => ?_
  rw [h k (Finset.mem_range.1 hk), share_none]

theorem refers_opened (h : file.status = .opened) : file.refers = file.node :=
  if_pos (Or.inl h)

theorem refers_closed (h : file.status = .closed) : file.refers = file.node :=
  if_pos (Or.inr h)

theorem refers_init (h : file.status = .init) : file.refers = none := by
  unfold File.refers
  rw [h]
  exact if_neg (by decide)

theorem refers_unused (h : file.status = .none) : file.refers = none := by
  unfold File.refers
  rw [h]
  exact if_neg (by decide)

theorem onVfs_moves {m : VfsM α} {d : α → Tally} (h : Moves tally m d) :
    Moves fileTally (onVfs m) d := by
  intro s a s' hrun
  obtain ⟨v, hm, rfl⟩ := onVfs_run hrun
  show tally v - tableShare s.fdArray = _
  rw [h _ _ _ hm]
  unfold fileTally
  abel

theorem bind_getFile_eq {f : File → FileM α} :
    (getFile k >>= f) s = f (s.fdArray k) s := rfl

/-- An entry that is stored changes the share of its place. -/
theorem setFile_tally (hk : k < filesStructNentry) {u : Unit}
    (hrun : setFile k file s = some (u, s')) :
    fileTally s' = fileTally s + share (s.fdArray k).refers - share file.refers := by
  obtain rfl := Call.modify_eq_some.1 hrun
  show tally s.vfs - tableShare (Function.update s.fdArray k file) = _
  rw [tableShare_update hk]
  unfold fileTally
  abel

theorem setFile_keeps (hk : k < filesStructNentry) {u : Unit}
    (hsame : file.refers = (s.fdArray k).refers)
    (hrun : setFile k file s = some (u, s')) : fileTally s' = fileTally s := by
  rw [setFile_tally hk hrun, hsame, add_sub_cancel_right]

-- ============================================================ frames

/-- Of the table only entry `k` changes, and the current directory stays. -/
structure Frame (k : Nat) (s s' : Files) : Prop where
  pwd : s'.vfs.pwd = s.vfs.pwd
  other : ∀ j, j ≠ k → s'.fdArray j = s.fdArray j

instance : Std.Refl (Frame k) := ⟨fun _ => ⟨rfl, fun _ _ => rfl⟩⟩

instance : IsTrans Files (Frame k) := ⟨fun _ _ _ h h' =>
  ⟨h'.pwd.trans h.pwd, fun j hj => (h'.other j hj).trans (h.other j hj)⟩⟩

theorem onVfs_frame {m : VfsM α} (h : Relates SameStart m) :
    Relates (Frame k) (onVfs m) := by
  intro s a s' hrun
  obtain ⟨v, hm, rfl⟩ := onVfs_run hrun
  exact ⟨(h _ _ _ hm).pwd, fun _ _ => rfl⟩

theorem getFile_frame {j : Nat} : Relates (Frame k) (getFile j) :=
  Relates.get.bind fun _ => .pure

theorem setFile_frame : Relates (Frame k) (setFile k file) :=
  Relates.modify fun _ => ⟨rfl, fun _ hj => Function.update_of_ne hj _ _⟩

theorem vopOpenInc_start : Relates SameStart (vopOpenInc node) :=
  Relates.modify fun _ => ⟨rfl, rfl, rfl⟩

theorem vfsClose_start : Relates SameStart (vfsClose node) := by
  have hclose : Relates SameStart (vopClose node) := by
    refine (inodeCheck_start node).bind fun _ => ?_
    cases node with
    | sfs ino => exact onSfs_start _
    | dev id => exact .pure
  have hdec : Relates SameStart (vopOpenDec node) := by
    refine Relates.get.bind fun s => Relates.assert.bind fun _ => ?_
    apply Relates.bind
    · exact .modify fun _ => ⟨rfl, rfl, rfl⟩
    · exact fun _ => .ite hclose .pure
  exact hdec.bind fun _ => vopRefDec_start node

theorem fdArrayFree_frame : Relates (Frame k) (fdArrayFree k) := by
  have hstatus : Relates (Frame k) (do
      let file ← getFile k
      setFile k { file with status := .none }) :=
    getFile_frame.bind fun _ => setFile_frame
  exact getFile_frame.bind fun _ => Relates.assert.bind fun _ =>
    Relates.assert.bind fun _ => .ite (Relates.ofOption.bind fun _ =>
      (onVfs_frame vfsClose_start).bind fun _ => hstatus) hstatus

theorem fdArrayClose_frame : Relates (Frame k) (fdArrayClose k) :=
  getFile_frame.bind fun _ => Relates.assert.bind fun _ =>
    Relates.assert.bind fun _ => setFile_frame.bind fun _ =>
      .ite fdArrayFree_frame .pure

theorem fdArrayOpen_frame : Relates (Frame k) (fdArrayOpen k) :=
  getFile_frame.bind fun _ => Relates.assert.bind fun _ => setFile_frame

theorem fdArrayDupOf_frame {source : File} :
    Relates (Frame k) (fdArrayDupOf k source) :=
  getFile_frame.bind fun _ => Relates.assert.bind fun _ =>
    Relates.ofOption.bind fun _ =>
      (onVfs_frame (vopRefInc_start _)).bind fun _ =>
        (onVfs_frame vopOpenInc_start).bind fun _ =>
          setFile_frame.bind fun _ => fdArrayOpen_frame

-- ==================================================== the file table

/-- An entry that is freed gives its share back, if it was closed. -/
theorem fdArrayFree_keeps (hk : k < filesStructNentry) :
    Keeps fileTally (fdArrayFree k) := by
  refine Keeps.of_eq fun s u s' hrun => ?_
  unfold fdArrayFree at hrun
  rw [bind_getFile_eq, Call.bind_assert_eq_some, Call.bind_assert_eq_some] at hrun
  obtain ⟨hstatus, -, hrun⟩ := hrun
  -- the last part leaves the entry without a share
  have hlast : ∀ {t : Files}, t.fdArray = s.fdArray →
      (getFile k >>= fun file => setFile k { file with status := .none }) t
        = some (u, s') →
      fileTally s' = fileTally t + share (s.fdArray k).refers := by
    intro t htable hset
    have hnone : File.refers { t.fdArray k with status := .none } = none :=
      refers_unused rfl
    rw [setFile_tally hk hset, hnone, share_none, sub_zero, htable]
  by_cases hclosed : (s.fdArray k).status = .closed
  · rw [if_pos hclosed] at hrun
    obtain ⟨node, t₀, hnode, hrest⟩ := Call.bind_eq_some.1 hrun
    obtain ⟨hnode, ht₀⟩ := Call.ofOption_eq_some.1 hnode
    rw [ht₀] at hrest
    obtain ⟨_, t, hclose, hrest⟩ := Call.bind_eq_some.1 hrest
    obtain ⟨v, -, ht⟩ := onVfs_run hclose
    have hdropped : fileTally t = fileTally s + -share (some node) :=
      onVfs_moves vfsClose_moves _ _ _ hclose
    rw [hlast (by rw [ht]) hrest, hdropped, refers_closed hclosed, hnode,
      neg_add_cancel_right]
  · rw [if_neg hclosed] at hrun
    rw [hlast rfl hrun, refers_init (hstatus.resolve_right hclosed), share_none,
      add_zero]

theorem fdArrayClose_keeps (hk : k < filesStructNentry) :
    Keeps fileTally (fdArrayClose k) := by
  refine Keeps.of_eq fun s u s' hrun => ?_
  unfold fdArrayClose at hrun
  rw [bind_getFile_eq, Call.bind_assert_eq_some, Call.bind_assert_eq_some] at hrun
  obtain ⟨hopened, -, hrun⟩ := hrun
  obtain ⟨_, t, hset, hrun⟩ := Call.bind_eq_some.1 hrun
  have hstored : fileTally t = fileTally s := by
    refine setFile_keeps hk ?_ hset
    exact (refers_closed rfl).trans (refers_opened hopened).symm
  rw [← hstored]
  exact Keeps.eq (Moves.ite (fdArrayFree_keeps hk) Keeps.pure) hrun

/-- An entry that is opened gets the share of its inode. -/
theorem fdArrayOpen_tally (hk : k < filesStructNentry) {u : Unit}
    (hrun : fdArrayOpen k s = some (u, s')) :
    fileTally s' = fileTally s - share (s.fdArray k).node := by
  unfold fdArrayOpen at hrun
  rw [bind_getFile_eq, Call.bind_assert_eq_some] at hrun
  obtain ⟨hinit, hset⟩ := hrun
  have hopened : File.refers { s.fdArray k with
      status := .opened, openCount := (s.fdArray k).openCount + 1 }
      = (s.fdArray k).node := refers_opened rfl
  rw [setFile_tally hk hset, hopened, refers_init hinit.1, share_none, add_zero]

/-- An entry takes what it is opened with over from another. -/
theorem fdArrayDupOf_keeps (hk : k < filesStructNentry) {source : File} :
    Keeps fileTally (fdArrayDupOf k source) := by
  refine Keeps.of_eq fun s u s' hrun => ?_
  unfold fdArrayDupOf at hrun
  rw [bind_getFile_eq, Call.bind_assert_eq_some] at hrun
  obtain ⟨hinit, hrun⟩ := hrun
  obtain ⟨node, t₀, hnode, hrun⟩ := Call.bind_eq_some.1 hrun
  obtain ⟨-, rfl⟩ := Call.ofOption_eq_some.1 hnode
  obtain ⟨_, t₁, hinc, hrun⟩ := Call.bind_eq_some.1 hrun
  obtain ⟨_, t₂, hopen, hrun⟩ := Call.bind_eq_some.1 hrun
  obtain ⟨_, t₃, hset, hlast⟩ := Call.bind_eq_some.1 hrun
  have htaken : fileTally t₁ = fileTally t₀ + refTo (some node) :=
    onVfs_moves vopRefInc_moves _ _ _ hinc
  have hopened : fileTally t₂ = fileTally t₁ + openTo (some node) :=
    onVfs_moves vopOpenInc_moves _ _ _ hopen
  obtain ⟨v₁, -, ht₁⟩ := onVfs_run hinc
  obtain ⟨v₂, -, ht₂⟩ := onVfs_run hopen
  have hentry : t₂.fdArray k = t₀.fdArray k := by
    rw [ht₂, ht₁]
  have hstored : fileTally t₃ = fileTally t₂ := by
    refine setFile_keeps hk ?_ hset
    rw [hentry, refers_init hinit.1]
    exact refers_init hinit.1
  have hentry₃ : (t₃.fdArray k).node = some node := by
    obtain rfl := Call.modify_eq_some.1 hset
    show (Function.update t₂.fdArray k _ k).node = _
    rw [Function.update_self]
  rw [fdArrayOpen_tally hk hlast, hentry₃, hstored, hopened, htaken]
  unfold share
  abel

theorem fdArrayDup_eq (to' from' : Nat) :
    fdArrayDup to' from' = (do
      let source ← getFile from'
      fdArrayDupOf to' source) := rfl

/-- What `fd_array_alloc` leaves where it finds an entry. -/
structure Alloced (s s' : Files) (k : Nat) : Prop where
  lt : k < filesStructNentry
  tally : fileTally s' = fileTally s
  vfs : s'.vfs = s.vfs
  init : (s'.fdArray k).status = .init

theorem fdArrayFound_run {r : Except Err Nat} (hk : k < filesStructNentry)
    (hfree : (s.fdArray k).status = .none)
    (hrun : fdArrayFound k s = some (r, s')) : r = .ok k ∧ Alloced s s' k := by
  unfold fdArrayFound at hrun
  rw [bind_getFile_eq, Call.bind_assert_eq_some] at hrun
  obtain ⟨-, hrun⟩ := hrun
  obtain ⟨_, t, hset, hrun⟩ := Call.bind_eq_some.1 hrun
  obtain ⟨rfl, rfl⟩ := Call.pure_eq_some.1 hrun
  have hkept : fileTally s' = fileTally s := by
    refine setFile_keeps hk ?_ hset
    rw [refers_unused hfree]
    exact refers_init rfl
  obtain rfl := Call.modify_eq_some.1 hset
  refine ⟨rfl, hk, hkept, rfl, ?_⟩
  show (Function.update s.fdArray k _ k).status = _
  rw [Function.update_self]

/-- An entry is free. -/
def HasFree (s : Files) : Prop :=
  ∃ k < filesStructNentry, (s.fdArray k).status = .none

/-- `fd_array_alloc` finds an entry, or it changes nothing. -/
theorem fdArrayAlloc_run {r : Except Err Nat}
    (hrun : fdArrayAlloc fd s = some (r, s')) :
    (∃ k, r = .ok k ∧ HasFree s ∧ Alloced s s' k)
      ∨ (∃ e, r = .error e) ∧ s' = s ∧ (fd = noFd → ¬ HasFree s) := by
  unfold fdArrayAlloc at hrun
  obtain ⟨_, _, hget, hrun⟩ := Call.bind_eq_some.1 hrun
  obtain ⟨hs, ht⟩ := Call.get_eq_some.1 hget
  rw [hs, ht] at hrun
  split at hrun
  case isTrue hany =>
      cases hfind : (List.range filesStructNentry).find?
          fun k => (s.fdArray k).status = .none with
      | some k =>
          rw [hfind] at hrun
          have hk := List.mem_range.1 (List.mem_of_find?_eq_some hfind)
          have hfree : (s.fdArray k).status = .none := by
            simpa using List.find?_some hfind
          obtain ⟨hr, halloced⟩ := fdArrayFound_run hk hfree hrun
          exact Or.inl ⟨k, hr, ⟨k, hk, hfree⟩, halloced⟩
      | none =>
          rw [hfind] at hrun
          obtain ⟨rfl, rfl⟩ := Call.pure_eq_some.1 hrun
          refine Or.inr ⟨⟨_, rfl⟩, rfl, fun _ hfree => ?_⟩
          obtain ⟨k, hk, hnone⟩ := hfree
          have hno := List.find?_eq_none.1 hfind k (List.mem_range.2 hk)
          exact hno (decide_eq_true hnone)
  case isFalse hone =>
      have herror : ∀ {e : Err}, (pure (.error e) : FileM (Except Err Nat)) s
          = some (r, s') → (∃ e, r = .error e) ∧ s' = s
            ∧ (fd = noFd → ¬ HasFree s) := by
        intro e hrun
        obtain ⟨rfl, rfl⟩ := Call.pure_eq_some.1 hrun
        exact ⟨⟨_, rfl⟩, rfl, fun h => absurd h hone⟩
      split at hrun
      case isFalse => exact Or.inr (herror hrun)
      case isTrue hrange =>
          split at hrun
          case isFalse => exact Or.inr (herror hrun)
          case isTrue hfree =>
              have hk : fd.toNat < filesStructNentry := by
                obtain ⟨hlo, hhi⟩ := hrange
                omega
              obtain ⟨hr, halloced⟩ := fdArrayFound_run hk hfree hrun
              exact Or.inl ⟨_, hr, ⟨_, hk, hfree⟩, halloced⟩

theorem fd2file_lt {r : Except Err Nat} (hrun : fd2file fd s = some (r, s')) :
    s' = s ∧ ∀ k, r = .ok k → k < filesStructNentry := by
  unfold fd2file at hrun
  obtain ⟨_, _, hget, hrun⟩ := Call.bind_eq_some.1 hrun
  obtain ⟨hs, ht⟩ := Call.get_eq_some.1 hget
  rw [hs, ht] at hrun
  split at hrun
  case isTrue hopen =>
      obtain ⟨rfl, rfl⟩ := Call.pure_eq_some.1 hrun
      refine ⟨rfl, fun k heq => ?_⟩
      cases heq
      obtain ⟨⟨hlo, hhi⟩, -⟩ := hopen
      omega
  case isFalse =>
      obtain ⟨rfl, rfl⟩ := Call.pure_eq_some.1 hrun
      exact ⟨rfl, fun k heq => by cases heq⟩

-- ============================================================= calls

theorem onVfs_same {m : VfsM α} (h : Relates Eq m) : Relates Eq (onVfs m) := by
  intro s a s' hrun
  obtain ⟨v, hm, rfl⟩ := onVfs_run hrun
  rw [← h _ _ _ hm]

theorem vopFstat_same : Relates Eq (vopFstat node) := by
  refine (onVfs_same inodeCheck_same).bind fun _ => ?_
  cases node with
  | sfs ino =>
      exact (onVfs_same getSin_same).bind fun _ =>
        Relates.assert.bind fun _ => .pure
  | dev id => exact Relates.get.bind fun _ => .pure

/-- The inode of an open goes into the entry. -/
theorem fileOpened_tally (hk : k < filesStructNentry)
    (hinit : (s.fdArray k).status = .init) {pos : Int} {r : Except Err Int}
    (hrun : fileOpened k flags node pos s = some (r, s')) :
    fileTally s' = fileTally s - share (some node) := by
  unfold fileOpened at hrun
  rw [bind_getFile_eq] at hrun
  obtain ⟨_, t, hset, hrun⟩ := Call.bind_eq_some.1 hrun
  obtain ⟨_, t', hopen, hrun⟩ := Call.bind_eq_some.1 hrun
  obtain ⟨-, rfl⟩ := Call.pure_eq_some.1 hrun
  have hstored : fileTally t = fileTally s := by
    refine setFile_keeps hk ?_ hset
    rw [refers_init hinit]
    exact refers_init hinit
  have hnode : (t.fdArray k).node = some node := by
    obtain rfl := Call.modify_eq_some.1 hset
    show (Function.update s.fdArray k _ k).node = _
    rw [Function.update_self]
  rw [fdArrayOpen_tally hk hopen, hstored, hnode]

/-- `file_open` makes an entry for what it opens, and leaves the reference of
the lookup where it finds what it was to create. -/
theorem fileOpen_cases {r : Except Err Int}
    (hrun : fileOpen path flags s = some (r, s')) :
    (∀ node, HasFree s → ¬ Finds s.vfs path flags node)
        ∧ fileTally s' = fileTally s
      ∨ ∃ node, HasFree s ∧ Finds s.vfs path flags node
        ∧ fileTally s' = fileTally s + refTo (some node) := by
  unfold fileOpen at hrun
  split at hrun
  case isTrue hmode =>
      obtain ⟨-, rfl⟩ := Call.pure_eq_some.1 hrun
      exact Or.inl ⟨fun node _ hfinds => hfinds.2.2.1.1.elim hmode.1 hmode.2, rfl⟩
  case isFalse =>
      obtain ⟨r₁, t, halloc, hrun⟩ := Call.bind_eq_some.1 hrun
      obtain ⟨k, rfl, hfree, halloced⟩ | ⟨⟨e, rfl⟩, ht, hfull⟩ :=
        fdArrayAlloc_run halloc
      case inr =>
          rw [(Call.pure_eq_some.1 hrun).2, ht]
          exact Or.inl ⟨fun node hfree => absurd hfree (hfull rfl), rfl⟩
      obtain ⟨hk, htally, hvfs, hinit⟩ := halloced
      obtain ⟨r₂, t₂, hopen, hrun⟩ := Call.bind_eq_some.1 hrun
      obtain ⟨v, hv, ht₂⟩ := onVfs_run hopen
      have htable : t₂.fdArray = t.fdArray := by rw [ht₂]
      rw [hvfs] at hv
      have hmoved : ∀ d, tally v = tally s.vfs + d →
          fileTally t₂ = fileTally s + d := by
        intro d hd
        rw [← htally, ht₂]
        show tally v - tableShare t.fdArray = tally t.vfs - tableShare t.fdArray + d
        rw [hd, hvfs]
        abel
      obtain ⟨hno, hcounts⟩ | ⟨node, hfinds, rfl, hcounts⟩ := vfsOpen_cases hv
      case inr =>
          refine Or.inr ⟨node, hfree, hfinds, ?_⟩
          obtain ⟨_, t₃, hdrop, hrun⟩ := Call.bind_eq_some.1 hrun
          obtain ⟨-, rfl⟩ := Call.pure_eq_some.1 hrun
          rw [(fdArrayFree_keeps hk).eq hdrop]
          exact hmoved _ hcounts
      refine Or.inl ⟨fun node _ => hno node, ?_⟩
      have hgot := hmoved _ hcounts
      cases r₂ with
      | error e =>
          obtain ⟨_, t₃, hdrop, hrun⟩ := Call.bind_eq_some.1 hrun
          obtain ⟨-, rfl⟩ := Call.pure_eq_some.1 hrun
          rw [(fdArrayFree_keeps hk).eq hdrop, hgot]
          exact (congrArg (fileTally s + ·) share_none).trans (add_zero _)
      | ok node =>
          have hshare : share (Except.ok (ε := Err) node).toOption
              = share (some node) := rfl
          rw [hshare] at hgot
          have hinit₂ : (t₂.fdArray k).status = .init := by rw [htable, hinit]
          dsimp only at hrun
          split at hrun
          case isFalse =>
              rw [fileOpened_tally hk hinit₂ hrun, hgot, add_sub_cancel_right]
          case isTrue =>
              obtain ⟨r₃, t₃, hstat, hrun⟩ := Call.bind_eq_some.1 hrun
              rw [← vopFstat_same _ _ _ hstat] at hrun
              cases r₃ with
              | ok size =>
                  rw [fileOpened_tally hk hinit₂ hrun, hgot, add_sub_cancel_right]
              | error e =>
                  obtain ⟨_, t₄, hclose, hrun⟩ := Call.bind_eq_some.1 hrun
                  obtain ⟨_, t₅, hdrop, hrun⟩ := Call.bind_eq_some.1 hrun
                  obtain ⟨-, rfl⟩ := Call.pure_eq_some.1 hrun
                  have hdropped : fileTally t₄
                      = fileTally t₂ + -share (some node) :=
                    onVfs_moves vfsClose_moves _ _ _ hclose
                  rw [(fdArrayFree_keeps hk).eq hdrop, hdropped, hgot,
                    add_neg_cancel_right]

theorem fileClose_keeps : Keeps fileTally (fileClose fd) := by
  refine Keeps.of_eq fun s r s' hrun => ?_
  unfold fileClose at hrun
  obtain ⟨r₁, t, hfile, hrun⟩ := Call.bind_eq_some.1 hrun
  obtain ⟨rfl, hlt⟩ := fd2file_lt hfile
  cases r₁ with
  | error e => rw [(Call.pure_eq_some.1 hrun).2]
  | ok k =>
      obtain ⟨_, t₁, hclose, hrun⟩ := Call.bind_eq_some.1 hrun
      rw [(Call.pure_eq_some.1 hrun).2]
      exact (fdArrayClose_keeps (hlt k rfl)).eq hclose

theorem fileDup_keeps {fd' : Int} : Keeps fileTally (fileDup fd fd') := by
  refine Keeps.of_eq fun s r s' hrun => ?_
  unfold fileDup at hrun
  obtain ⟨r₁, t, hfile, hrun⟩ := Call.bind_eq_some.1 hrun
  obtain ⟨rfl, -⟩ := fd2file_lt hfile
  cases r₁ with
  | error e => rw [(Call.pure_eq_some.1 hrun).2]
  | ok k =>
      obtain ⟨r₂, t₂, halloc, hrun⟩ := Call.bind_eq_some.1 hrun
      obtain ⟨k', rfl, -, halloced⟩ | ⟨⟨e, rfl⟩, ht₂, -⟩ := fdArrayAlloc_run halloc
      case inr => rw [(Call.pure_eq_some.1 hrun).2, ht₂]
      obtain ⟨_, t₃, hdup, hrun⟩ := Call.bind_eq_some.1 hrun
      obtain ⟨_, t₄, hget, hrun⟩ := Call.bind_eq_some.1 hrun
      rw [(Call.pure_eq_some.1 hrun).2, (getFile_run hget).2, ← halloced.tally]
      rw [fdArrayDup_eq, bind_getFile_eq] at hdup
      exact (fdArrayDupOf_keeps halloced.lt).eq hdup

end Ucore.Vfs
