/-
The references and opens of inodes are those that are pointed to.

`procTally` is what the counts are beyond the pointers of all `files_struct`s,
of `bootfs` and of the holders of references. It is zero where the accounts
are right, and each call keeps it, but for an open that finds what it was to
create exclusively.
-/
import Ucore.Lib.Run
import Ucore.Vfs.Proofs.Shares
import Mathlib.Algebra.BigOperators.Pi
import Mathlib.Algebra.BigOperators.Ring.Finset

namespace Ucore.Vfs

open Sfs
open Call (Relates Moves Keeps)

variable {s s' : Procs} {p q : Nat} {node : Inode} {fd : Int}
  {path : List UInt8} {flags : BitVec 32} {call : ProcCall}
  {calls : List ProcCall} {α : Type}

-- ============================================================ shares

/-- The shares of a `files_struct`. -/
def structShare (filesp : FilesStruct) : Tally :=
  refTo filesp.pwd + tableShare filesp.fdArray

/-- The references that are held. -/
def heldTally (s : Procs) : Tally := fun node => (s.held node, 0)

/-- The counts beyond what points to the inodes. -/
def procTally (s : Procs) : Tally :=
  counts s.files.vfs - refTo s.files.vfs.bootfs
    - ∑ p ∈ s.live, structShare (s.structs p) - heldTally s

theorem load_store (files : Files) : (s.store p files).load p = files := by
  unfold Procs.load Procs.store
  dsimp only
  rw [Function.update_self]

/-- The counts as a process has them, less what is of the others. -/
theorem procTally_load (hp : p ∈ s.live) :
    procTally s = fileTally (s.load p)
      - ∑ q ∈ s.live.erase p, structShare (s.structs q) - heldTally s := by
  have hcounts : counts (s.load p).vfs = counts s.files.vfs := rfl
  unfold procTally fileTally tally
  rw [← Finset.add_sum_erase _ _ hp, hcounts]
  show _ = counts s.files.vfs - refTo (s.structs p).pwd - refTo s.files.vfs.bootfs
    - tableShare (s.structs p).fdArray - _ - heldTally s
  unfold structShare
  abel

theorem sum_others (filesp : FilesStruct) : ∑ q ∈ s.live.erase p,
      structShare (Function.update s.structs p filesp q)
    = ∑ q ∈ s.live.erase p, structShare (s.structs q) := by
  refine Finset.sum_congr rfl fun q hq => ?_
  rw [Function.update_of_ne (Finset.ne_of_mem_erase hq)]

theorem onFiles_run {m : FileM α} {a : α} (hrun : onFiles p m s = some (a, s')) :
    ∃ files, m (s.load p) = some (a, files) ∧ s' = s.store p files := by
  obtain ⟨⟨a', files⟩, hm, heq⟩ := Option.map_eq_some_iff.1 hrun
  cases heq
  exact ⟨files, hm, rfl⟩

/-- What a call moves in the files of a process it moves in all. -/
theorem store_tally (hp : p ∈ s.live) {files : Files} {d : Tally}
    (h : fileTally files = fileTally (s.load p) + d) :
    procTally (s.store p files) = procTally s + d := by
  have hmem : p ∈ (s.store p files).live := hp
  rw [procTally_load hmem, load_store, procTally_load hp, h]
  show _ - ∑ q ∈ s.live.erase p, structShare (Function.update s.structs p _ q)
    - heldTally s = _
  rw [sum_others]
  abel

theorem onFiles_tally {m : FileM α} {d : α → Tally} (h : Moves fileTally m d)
    (hp : p ∈ s.live) {a : α} (hrun : onFiles p m s = some (a, s')) :
    procTally s' = procTally s + d a := by
  obtain ⟨files, hm, rfl⟩ := onFiles_run hrun
  exact store_tally hp (h _ _ _ hm)

theorem getStruct_run {filesp : FilesStruct}
    (hrun : getStruct p s = some (filesp, s')) :
    p ∈ s.live ∧ filesp = s.structs p ∧ s' = s := by
  unfold getStruct at hrun
  rw [Call.bind_get_eq, Call.bind_assert_eq_some, Call.pure_eq_some] at hrun
  exact hrun

/-- A `files_struct` that is stored changes the shares of its place. -/
theorem setStruct_tally (hp : p ∈ s.live) {filesp : FilesStruct} {u : Unit}
    (hrun : setStruct p filesp s = some (u, s')) :
    procTally s'
      = procTally s + structShare (s.structs p) - structShare filesp := by
  obtain rfl := Call.modify_eq_some.1 hrun
  show counts s.files.vfs - refTo s.files.vfs.bootfs
    - ∑ q ∈ s.live, structShare (Function.update s.structs p filesp q)
    - heldTally s = _
  unfold procTally
  rw [← Finset.add_sum_erase _ _ hp, sum_others, Function.update_self,
    ← Finset.add_sum_erase _ (fun q => structShare (s.structs q)) hp]
  abel

theorem inProc_tally {m : FileM α} {d : α → Tally} (h : Moves fileTally m d)
    {a : α} (hrun : inProc p m s = some (a, s')) :
    procTally s' = procTally s + d a := by
  obtain ⟨_, t, hget, hrun⟩ := Call.bind_eq_some.1 hrun
  obtain ⟨hp, -, ht⟩ := getStruct_run hget
  rw [ht] at hrun
  exact onFiles_tally h hp hrun

theorem onFdArray_run {m : FileM α} {a : α}
    (hrun : onFdArray p m s = some (a, s')) :
    p ∈ s.live ∧ onFiles p m s = some (a, s') := by
  obtain ⟨_, t, hget, hrun⟩ := Call.bind_eq_some.1 hrun
  obtain ⟨hp, -, ht⟩ := getStruct_run hget
  rw [ht, Call.bind_assert_eq_some] at hrun
  exact ⟨hp, hrun.2⟩

theorem onFdArray_keeps {m : FileM α} (h : Keeps fileTally m) {a : α}
    (hrun : onFdArray p m s = some (a, s')) : procTally s' = procTally s := by
  obtain ⟨hp, hrun⟩ := onFdArray_run hrun
  exact (onFiles_tally h hp hrun).trans (add_zero _)

-- ====================================================== files_struct

theorem filesCountAdd_run {n count : Int}
    (hrun : filesCountAdd p n s = some (count, s')) :
    p ∈ s.live ∧ procTally s' = procTally s ∧ s'.live = s.live := by
  unfold filesCountAdd at hrun
  obtain ⟨filesp, t, hget, hrun⟩ := Call.bind_eq_some.1 hrun
  obtain ⟨hp, hfilesp, ht⟩ := getStruct_run hget
  obtain ⟨_, t', hset, hrun⟩ := Call.bind_eq_some.1 hrun
  rw [ht] at hset
  have hstored := setStruct_tally hp hset
  rw [(Call.pure_eq_some.1 hrun).2]
  refine ⟨hp, ?_, ?_⟩
  · rw [hstored, hfilesp]
    exact add_sub_cancel_right _ _
  · obtain rfl := Call.modify_eq_some.1 hset
    rfl

/-- A new `files_struct` has no shares. -/
theorem filesCreate_run {r : Option Nat} (hq : ∀ q', r = some q' → q' ∉ s.live)
    {o : Option Nat} (hrun : filesCreate o s = some (r, s')) :
    procTally s' = procTally s ∧ ∀ q', r = some q' →
      q' ∈ s'.live ∧ (s'.structs q').pwd = none
        ∧ ∀ k, ((s'.structs q').fdArray k).status = .none := by
  cases o with
  | none =>
      obtain ⟨rfl, rfl⟩ := Call.pure_eq_some.1 hrun
      exact ⟨rfl, fun _ h => by cases h⟩
  | some q =>
      unfold filesCreate at hrun
      dsimp only at hrun
      rw [Call.bind_modify_eq, Call.pure_eq_some] at hrun
      obtain ⟨rfl, rfl⟩ := hrun
      have hfresh := hq q rfl
      refine ⟨?_, fun q' heq => ?_⟩
      · have hnew : structShare
            { pwd := none, filesCount := 0
              fdArray := fdArrayInit (s.structs q).fdArray } = 0 := by
          unfold structShare
          rw [tableShare_zero fun k _ => refers_unused rfl]
          exact add_zero 0
        have hold : ∀ filesp, ∑ p ∈ s.live,
              structShare (Function.update s.structs q filesp p)
            = ∑ p ∈ s.live, structShare (s.structs p) := by
          refine fun filesp => Finset.sum_congr rfl fun p hp => ?_
          rw [Function.update_of_ne (ne_of_mem_of_not_mem hp hfresh)]
        show counts s.files.vfs - refTo s.files.vfs.bootfs
          - ∑ p ∈ insert q s.live, structShare (Function.update s.structs q _ p)
          - heldTally s = _
        rw [Finset.sum_insert hfresh, Function.update_self, hnew, hold, zero_add]
        rfl
      · cases heq
        show q ∈ insert q s.live ∧ (Function.update s.structs q _ q).pwd = none
          ∧ ∀ k, ((Function.update s.structs q _ q).fdArray k).status = .none
        rw [Function.update_self]
        exact ⟨Finset.mem_insert_self q _, rfl, fun k => rfl⟩

/-- The loop closes all entries, and leaves the current directory. -/
theorem filesDestroyLoop_run {u : Unit} : ∀ {n k : Nat} {s s' : Files},
    k + n ≤ filesStructNentry →
    filesDestroyLoop n k s = some (u, s') →
    fileTally s' = fileTally s ∧ s'.vfs.pwd = s.vfs.pwd
      ∧ (∀ j, j < k → s'.fdArray j = s.fdArray j)
      ∧ ∀ j, k ≤ j → j < k + n → (s'.fdArray j).status = .none
  | 0, k, s, s', _, hrun => by
      rw [(Call.pure_eq_some.1 hrun).2]
      exact ⟨rfl, rfl, fun _ _ => rfl, fun j hlo hhi => by omega⟩
  | n + 1, k, s, s', hle, hrun => by
      have hk : k < filesStructNentry := by omega
      unfold filesDestroyLoop at hrun
      rw [bind_getFile_eq] at hrun
      -- one entry, closed where it was open
      obtain ⟨t, htally, hframe, hrun⟩ : ∃ t, fileTally t = fileTally s
          ∧ Frame k s t
          ∧ (getFile k >>= fun file => do
            Call.assert (file.status = .none)
            filesDestroyLoop n (k + 1)) t = some (u, s') := by
        split at hrun
        case isTrue =>
            obtain ⟨_, t, hclose, hrun⟩ := Call.bind_eq_some.1 hrun
            exact ⟨t, (fdArrayClose_keeps hk).eq hclose,
              fdArrayClose_frame _ _ _ hclose, hrun⟩
        case isFalse => exact ⟨s, rfl, ⟨rfl, fun _ _ => rfl⟩, hrun⟩
      rw [bind_getFile_eq, Call.bind_assert_eq_some] at hrun
      obtain ⟨hnone, hrun⟩ := hrun
      obtain ⟨htally', hpwd, hbelow, habove⟩ :=
        filesDestroyLoop_run (by omega) hrun
      refine ⟨htally'.trans htally, hpwd.trans hframe.pwd, fun j hj => ?_,
        fun j hlo hhi => ?_⟩
      · rw [hbelow j (by omega), hframe.other j (by omega)]
      · by_cases hj : j = k
        · rw [hj, hbelow k (Nat.lt_succ_self k)]
          exact hnone
        · exact habove j (by omega) (by omega)

/-- A `files_struct` that is destroyed has given all its shares back. -/
theorem filesDestroy_keeps : Keeps procTally (filesDestroy p) := by
  refine Keeps.of_eq fun s u s' hrun => ?_
  unfold filesDestroy at hrun
  obtain ⟨filesp, t, hget, hrun⟩ := Call.bind_eq_some.1 hrun
  obtain ⟨hp, hfilesp, ht⟩ := getStruct_run hget
  rw [ht, Call.bind_assert_eq_some, hfilesp] at hrun
  obtain ⟨-, hrun⟩ := hrun
  -- the current directory loses its reference
  obtain ⟨t₁, hlive, hpwd, hdropped, hrun⟩ : ∃ t₁, t₁.live = s.live
      ∧ (t₁.structs p).pwd = (s.structs p).pwd
      ∧ procTally t₁ = procTally s - refTo (s.structs p).pwd
      ∧ (onFiles p (filesDestroyLoop filesStructNentry 0) >>= fun _ =>
        Call.modify fun s => { s with live := s.live.erase p }) t₁
          = some (u, s') := by
    cases hpwd : (s.structs p).pwd with
    | none =>
        rw [hpwd] at hrun
        exact ⟨s, rfl, hpwd, (sub_zero _).symm, hrun⟩
    | some node =>
        rw [hpwd] at hrun
        obtain ⟨_, t₁, hdec, hrun⟩ := Call.bind_eq_some.1 hrun
        have hmoved : procTally t₁ = procTally s + -refTo (some node) :=
          onFiles_tally (onVfs_moves vopRefDec_moves) hp hdec
        obtain ⟨files, hm, ht₁⟩ := onFiles_run hdec
        obtain ⟨v, hv, hfiles⟩ := onVfs_run hm
        refine ⟨t₁, by rw [ht₁]; rfl, ?_, hmoved.trans (sub_eq_add_neg _ _).symm,
          hrun⟩
        rw [ht₁, ← hpwd]
        show (Function.update s.structs p _ p).pwd = _
        rw [Function.update_self, hfiles]
        exact (vopRefDec_start node _ _ _ hv).pwd
  obtain ⟨_, t₂, hloop, hrun⟩ := Call.bind_eq_some.1 hrun
  rw [← hlive] at hp
  obtain ⟨files, hm, rfl⟩ := onFiles_run hloop
  obtain ⟨htally, hkept, -, hnone⟩ :=
    filesDestroyLoop_run (Nat.zero_add _).le hm
  have hsame := store_tally (d := 0) hp (htally.trans (add_zero _).symm)
  obtain rfl := Call.modify_eq_some.1 hrun
  have hmem : p ∈ (t₁.store p files).live := hp
  have hshare : structShare ((t₁.store p files).structs p)
      = refTo (s.structs p).pwd := by
    show structShare (Function.update t₁.structs p _ p) = _
    rw [Function.update_self, ← hpwd]
    unfold structShare
    rw [tableShare_zero fun k hk => refers_unused (hnone k (Nat.zero_le k)
      (by rw [Nat.zero_add]; exact hk))]
    exact (add_zero _).trans (congrArg refTo hkept)
  have herased : procTally { t₁.store p files with
        live := (t₁.store p files).live.erase p }
      = procTally (t₁.store p files) + refTo (s.structs p).pwd := by
    unfold procTally
    rw [← Finset.add_sum_erase _ _ hmem, hshare]
    show _ - ∑ q ∈ (t₁.store p files).live.erase p, _ - heldTally _ = _
    abel_nf
    rfl
  rw [herased, hsame, hdropped, add_zero, sub_add_cancel]

/-- The loop fills unused entries. -/
theorem dupFilesLoop_tally {source : Nat → File} {u : Unit} :
    ∀ {n k : Nat} {s s' : Files}, k + n ≤ filesStructNentry →
    (∀ j, k ≤ j → (s.fdArray j).status = .none) →
    dupFilesLoop source n k s = some (u, s') → fileTally s' = fileTally s
  | 0, k, s, s', _, _, hrun => by
      rw [(Call.pure_eq_some.1 hrun).2]
  | n + 1, k, s, s', hle, hnone, hrun => by
      have hk : k < filesStructNentry := by omega
      unfold dupFilesLoop at hrun
      split at hrun
      case isFalse =>
          exact dupFilesLoop_tally (by omega) (fun j hj => hnone j (by omega)) hrun
      case isTrue =>
          rw [bind_getFile_eq] at hrun
          obtain ⟨_, t, hset, hrun⟩ := Call.bind_eq_some.1 hrun
          obtain ⟨_, t₁, hdup, hrun⟩ := Call.bind_eq_some.1 hrun
          have hstored : fileTally t = fileTally s := by
            refine setFile_keeps hk ?_ hset
            rw [refers_unused (hnone k (Nat.le_refl k))]
            exact refers_init rfl
          have hframe : Frame k s t₁ := by
            have hfirst : Frame k s t := setFile_frame _ _ _ hset
            exact trans_of (Frame k) hfirst (fdArrayDupOf_frame _ _ _ hdup)
          rw [dupFilesLoop_tally (by omega) (fun j hj => ?_) hrun,
            (fdArrayDupOf_keeps hk).eq hdup, hstored]
          rw [hframe.other j (by omega)]
          exact hnone j (by omega)

/-- `dup_files` into a new `files_struct`. -/
theorem dupFiles_tally (hpwd : (s.structs q).pwd = none)
    (hnone : ∀ k, ((s.structs q).fdArray k).status = .none)
    {r : Except Err Unit} (hrun : dupFiles q p s = some (r, s')) :
    procTally s' = procTally s ∧ r = .ok () := by
  unfold dupFiles at hrun
  obtain ⟨filesp, t, hget, hrun⟩ := Call.bind_eq_some.1 hrun
  obtain ⟨hq, hfilesp, ht⟩ := getStruct_run hget
  rw [ht] at hrun
  obtain ⟨source, t, hget, hrun⟩ := Call.bind_eq_some.1 hrun
  obtain ⟨-, -, ht⟩ := getStruct_run hget
  rw [ht, Call.bind_assert_eq_some] at hrun
  obtain ⟨-, hrun⟩ := hrun
  obtain ⟨_, t₁, hset, hrun⟩ := Call.bind_eq_some.1 hrun
  have hstored := setStruct_tally hq hset
  have hold : structShare (s.structs q) = tableShare filesp.fdArray := by
    rw [hfilesp]
    unfold structShare
    rw [hpwd]
    exact zero_add _
  have hset' := Call.modify_eq_some.1 hset
  have hq₁ : q ∈ t₁.live := by
    rw [hset']
    exact hq
  have htable : (t₁.structs q).fdArray = filesp.fdArray := by
    rw [hset']
    show (Function.update s.structs q _ q).fdArray = _
    rw [Function.update_self]
  -- the new current directory gets a reference
  obtain ⟨t₂, hlive, htable₂, htaken, hrun⟩ : ∃ t₂, q ∈ t₂.live
      ∧ (t₂.structs q).fdArray = filesp.fdArray
      ∧ procTally t₂ = procTally s
      ∧ (onFiles q (dupFilesLoop source.fdArray filesStructNentry 0) >>= fun _ =>
        pure (.ok ())) t₂ = some (r, s') := by
    have hmoved : procTally t₁ = procTally s - refTo source.pwd := by
      rw [hstored, hold]
      show procTally s + tableShare filesp.fdArray
        - (refTo source.pwd + tableShare filesp.fdArray) = _
      abel
    cases hdir : source.pwd with
    | none =>
        rw [hdir] at hrun hmoved
        exact ⟨t₁, hq₁, htable, hmoved.trans (sub_zero _), hrun⟩
    | some node =>
        rw [hdir] at hrun hmoved
        obtain ⟨_, t₂, hinc, hrun⟩ := Call.bind_eq_some.1 hrun
        have hadded : procTally t₂ = procTally t₁ + refTo (some node) :=
          onFiles_tally (onVfs_moves vopRefInc_moves) hq₁ hinc
        obtain ⟨files, hm, ht₂⟩ := onFiles_run hinc
        obtain ⟨v, -, hfiles⟩ := onVfs_run hm
        refine ⟨t₂, by rw [ht₂]; exact hq₁, ?_, ?_, hrun⟩
        · rw [ht₂, ← htable]
          show (Function.update t₁.structs q _ q).fdArray = _
          rw [Function.update_self, hfiles]
          rfl
        · rw [hadded, hmoved, sub_add_cancel]
  obtain ⟨_, t₃, hloop, hrun⟩ := Call.bind_eq_some.1 hrun
  obtain ⟨hr, hs'⟩ := Call.pure_eq_some.1 hrun
  obtain ⟨files, hm, ht₃⟩ := onFiles_run hloop
  have hentries : ∀ j, 0 ≤ j → ((t₂.load q).fdArray j).status = .none := by
    intro j _
    show ((t₂.structs q).fdArray j).status = _
    rw [htable₂, hfilesp]
    exact hnone j
  have hkept := dupFilesLoop_tally (Nat.zero_add _).le hentries hm
  rw [hs', ht₃, store_tally (d := 0) hlive (hkept.trans (add_zero _).symm), htaken,
    add_zero]
  exact ⟨rfl, hr⟩

theorem copyFiles_tally {cloneFs : Bool} {o : Option Nat}
    (hfresh : ∀ q, o = some q → q ∉ s.live) {r : Except Err Nat}
    (hrun : copyFiles cloneFs p o s = some (r, s')) :
    procTally s' = procTally s := by
  unfold copyFiles at hrun
  obtain ⟨_, t, hget, hrun⟩ := Call.bind_eq_some.1 hrun
  obtain ⟨hp, -, ht⟩ := getStruct_run hget
  rw [ht] at hrun
  split at hrun
  case isTrue =>
      obtain ⟨_, t₁, hcount, hrun⟩ := Call.bind_eq_some.1 hrun
      rw [(Call.pure_eq_some.1 hrun).2]
      exact (filesCountAdd_run hcount).2.1
  case isFalse =>
      obtain ⟨created, t₁, hcreate, hrun⟩ := Call.bind_eq_some.1 hrun
      have hcreated : ∀ q, created = some q → o = some q := by
        intro q hq
        cases o with
        | none =>
            rw [hq] at hcreate
            exact absurd (Call.pure_eq_some.1 hcreate).1 (fun h => by cases h)
        | some q' =>
            unfold filesCreate at hcreate
            dsimp only at hcreate
            rw [Call.bind_modify_eq, Call.pure_eq_some] at hcreate
            exact hcreate.1.symm.trans hq
      obtain ⟨hkept, hnew⟩ :=
        filesCreate_run (fun q hq => hfresh q (hcreated q hq)) hcreate
      cases created with
      | none =>
          rw [(Call.pure_eq_some.1 hrun).2]
          exact hkept
      | some q =>
          obtain ⟨-, hpwd, hnone⟩ := hnew q rfl
          obtain ⟨dup, t₂, hdup, hrun⟩ := Call.bind_eq_some.1 hrun
          obtain ⟨hdupped, rfl⟩ := dupFiles_tally hpwd hnone hdup
          obtain ⟨_, t₃, hcount, hrun⟩ := Call.bind_eq_some.1 hrun
          rw [(Call.pure_eq_some.1 hrun).2, (filesCountAdd_run hcount).2.1,
            hdupped, hkept]

theorem putFiles_keeps : Keeps procTally (putFiles p) := by
  refine Keeps.of_eq fun s u s' hrun => ?_
  obtain ⟨count, t, hcount, hrun⟩ := Call.bind_eq_some.1 hrun
  rw [← (filesCountAdd_run hcount).2.1]
  exact Keeps.eq (Moves.ite filesDestroy_keeps Keeps.pure) hrun

-- ============================================================= steps

theorem leaks_iff : (ProcCall.fileOpen p path flags).Leaks s
    ↔ ∃ node, HasFree (s.load p) ∧ Finds (s.load p).vfs path flags node := by
  constructor
  · rintro ⟨hcreat, hexcl, hmode, htrunc, hfree, path', node, v, hlookup⟩
    exact ⟨node, hfree, hcreat, hexcl, ⟨hmode, htrunc⟩, path', v, hlookup⟩
  · rintro ⟨node, hfree, hcreat, hexcl, ⟨hmode, htrunc⟩, path', v, hlookup⟩
    exact ⟨hcreat, hexcl, hmode, htrunc, hfree, path', node, v, hlookup⟩

theorem fileOpen_tally {r : Except Err Int}
    (hrun : onFdArray p (fileOpen path flags) s = some (r, s')) :
    ¬ (ProcCall.fileOpen p path flags).Leaks s ∧ procTally s' = procTally s
      ∨ (ProcCall.fileOpen p path flags).Leaks s
        ∧ ∃ node, procTally s' = procTally s + refTo (some node) := by
  obtain ⟨hp, hrun⟩ := onFdArray_run hrun
  obtain ⟨files, hm, rfl⟩ := onFiles_run hrun
  obtain ⟨hno, hkept⟩ | ⟨node, hfree, hfinds, hmoved⟩ := fileOpen_cases hm
  · refine Or.inl ⟨fun hleaks => ?_, ?_⟩
    · obtain ⟨node, hfree, hfinds⟩ := leaks_iff.1 hleaks
      exact hno node hfree hfinds
    · rw [store_tally (d := 0) hp (hkept.trans (add_zero _).symm), add_zero]
  · exact Or.inr ⟨leaks_iff.2 ⟨node, hfree, hfinds⟩, node, store_tally hp hmoved⟩

/-- What a lookup hands out is held. -/
theorem hold_tally (r : Except Err Inode) :
    procTally (hold r s) = procTally s - refTo r.toOption := by
  cases r with
  | error e => exact (sub_zero _).symm
  | ok node =>
      have hheld : heldTally (hold (.ok node) s)
          = heldTally s + refTo (some node) := by
        funext node'
        unfold refTo mark
        rw [Pi.add_apply]
        by_cases hnode : node' = node
        · rw [hnode, if_pos rfl]
          refine Prod.ext ?_ rfl
          show Function.update s.held node (s.held node + 1) node = s.held node + 1
          rw [Function.update_self]
        · rw [if_neg (fun h => hnode (by cases h; rfl)), add_zero]
          refine Prod.ext ?_ rfl
          show Function.update s.held node _ node' = s.held node'
          exact Function.update_of_ne hnode _ _
      show counts s.files.vfs - refTo s.files.vfs.bootfs
        - ∑ p ∈ s.live, structShare (s.structs p) - heldTally (hold (.ok node) s)
        = _
      rw [hheld]
      show _ = _ - refTo (some node)
      unfold procTally
      abel

/-- A held reference is given back. -/
theorem release_tally {u : Unit} {files : Files}
    (hrun : onVfs (vopRefDec node) s.files = some (u, files)) :
    procTally (release node { s with files := files }) = procTally s := by
  obtain ⟨v, hv, rfl⟩ := onVfs_run hrun
  have hstart := vopRefDec_start node _ _ _ hv
  have hmoved : tally v = tally s.files.vfs + -refTo (some node) :=
    vopRefDec_moves _ _ _ hv
  have hcounts : counts v = counts s.files.vfs - refTo (some node) := by
    unfold tally at hmoved
    rw [hstart.pwd, hstart.bootfs] at hmoved
    calc counts v
        = counts v - refTo s.files.vfs.pwd - refTo s.files.vfs.bootfs
          + (refTo s.files.vfs.pwd + refTo s.files.vfs.bootfs) := by abel
      _ = counts s.files.vfs - refTo (some node) := by
        rw [hmoved]
        abel
  have hheld : heldTally (release node { s with
        files := { s.files with vfs := v } })
      = heldTally s - refTo (some node) := by
    funext node'
    unfold refTo mark
    rw [Pi.sub_apply]
    by_cases hnode : node' = node
    · rw [hnode, if_pos rfl]
      refine Prod.ext ?_ (sub_zero _).symm
      show Function.update s.held node (s.held node - 1) node = s.held node - 1
      rw [Function.update_self]
    · rw [if_neg (fun h => hnode (by cases h; rfl)), sub_zero]
      refine Prod.ext ?_ rfl
      show Function.update s.held node _ node' = s.held node'
      exact Function.update_of_ne hnode _ _
  show counts v - refTo v.bootfs - ∑ p ∈ s.live, structShare (s.structs p)
    - heldTally (release node _) = _
  rw [hcounts, hstart.bootfs, hheld]
  unfold procTally
  abel

/-- A call keeps the accounts, or it is an open that leaves a reference. -/
theorem ProcStep.tally (h : ProcStep s call s') :
    ¬ call.Leaks s ∧ procTally s' = procTally s
      ∨ call.Leaks s ∧ ∃ node, procTally s' = procTally s + refTo (some node) := by
  obtain ⟨hlegal, hexec⟩ := h
  cases call with
  | fileOpen p path flags =>
      obtain ⟨⟨r, t⟩, hrun, rfl⟩ := Option.map_eq_some_iff.1 hexec
      exact fileOpen_tally hrun
  | fileClose p fd =>
      obtain ⟨⟨r, t⟩, hrun, rfl⟩ := Option.map_eq_some_iff.1 hexec
      exact Or.inl ⟨id, onFdArray_keeps fileClose_keeps hrun⟩
  | fileDup p fd1 fd2 =>
      obtain ⟨⟨r, t⟩, hrun, rfl⟩ := Option.map_eq_some_iff.1 hexec
      exact Or.inl ⟨id, onFdArray_keeps fileDup_keeps hrun⟩
  | chdir p path =>
      obtain ⟨⟨r, t⟩, hrun, rfl⟩ := Option.map_eq_some_iff.1 hexec
      refine Or.inl ⟨id, ?_⟩
      exact (inProc_tally (onVfs_moves vfsChdir_keeps) hrun).trans (add_zero _)
  | copyFiles cloneFs p o =>
      obtain ⟨⟨r, t⟩, hrun, rfl⟩ := Option.map_eq_some_iff.1 hexec
      refine Or.inl ⟨id, copyFiles_tally (fun q hq => ?_) hrun⟩
      rw [hq] at hlegal
      exact hlegal
  | putFiles p =>
      obtain ⟨⟨r, t⟩, hrun, rfl⟩ := Option.map_eq_some_iff.1 hexec
      exact Or.inl ⟨id, putFiles_keeps.eq hrun⟩
  | lookup p path =>
      obtain ⟨⟨r, t⟩, hrun, rfl⟩ := Option.map_eq_some_iff.1 hexec
      refine Or.inl ⟨id, ?_⟩
      have hmoved : procTally t = procTally s + refTo r.2.toOption :=
        inProc_tally (onVfs_moves vfsLookup_moves) hrun
      rw [hold_tally, hmoved, add_sub_cancel_right]
  | refDec node =>
      obtain ⟨⟨r, files⟩, hrun, rfl⟩ := Option.map_eq_some_iff.1 hexec
      exact Or.inl ⟨id, release_tally hrun⟩

-- ========================================================== accounts

end Ucore.Vfs
