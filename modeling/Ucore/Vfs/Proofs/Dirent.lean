/-
A directory listed by calls of `file_getdirentry`.

The loop of `sfs_getdirentry_sub_nolock` finds the entry in use that as many
are before as its argument says, and a call advances the offset by the size
of one name. So the call after `n` names returns name `n`, and changes
nothing; the empty slots do not matter.
-/
import Ucore.Sfs.Proofs.Dir
import Ucore.Vfs.Dirent
import Ucore.Vfs.Proofs.File

namespace Ucore.Vfs

open Sfs

variable {s : Files} {fs : SfsFs} {files held : Finset Nat} {i : Nat}
  {node : SfsInode} {fd : Int} {v₀ : Volume} {ops : List FileOp}

-- ========================================================== scanning

/-- The entry in a slot that was found, or none. -/
def foundEntry (fs : SfsFs) (i : Nat) : Option Nat → Except Err DiskEntry
  | some slot => .ok (entryOf fs i slot)
  | none => .error .noEnt

/-- The loop counts the entries in use. -/
theorem sfsGetdirentrySubLoop_eq (h : Inv held ⟨fs, files⟩)
    (hnode : fs.inodes i = some node) (hdir : node.din.type = sfsTypeDir)
    (hslots : ∀ slot < node.din.blocks, blockAt fs i slot ≠ 0) :
    ∀ n k m, k + n ≤ node.din.blocks → sfsGetdirentrySubLoop i n k m fs
      = some (foundEntry fs i ((List.range' k n).filter
        fun slot => (entryOf fs i slot).ino ≠ 0)[m]?, fs) := by
  intro n
  induction n with
  | zero => exact fun _ _ _ => rfl
  | succ n ih =>
      intro k m hle
      have hread := sfsDirentReadEntry_eq h hnode hdir
        (show k < node.din.blocks by omega) (hslots k (by omega))
      rw [sfsGetdirentrySubLoop, Call.bind_of_eq _ hread]
      dsimp only
      rw [List.range'_succ, List.filter_cons]
      by_cases hused : (entryOf fs i k).ino ≠ 0
      · rw [if_pos hused, if_pos (decide_eq_true hused)]
        cases m with
        | zero => rfl
        | succ m =>
            rw [if_neg (Nat.succ_ne_zero m), List.getElem?_cons_succ]
            exact ih (k + 1) m (by omega)
      · rw [if_neg hused, if_neg (by simpa using hused)]
        exact ih (k + 1) m (by omega)

theorem name_length (buf : Nat → UInt8) :
    (DiskEntry.ofBytes buf).name.length ≤ sfsMaxFnameLen := by
  have htake := (List.takeWhile_sublist (l := (List.range sfsMaxFnameLen).map
    fun k => buf (4 + k)) (p := fun c => decide (c ≠ 0))).length_le
  rw [List.length_map, List.length_range] at htake
  exact htake

/-- A move that fills the buffer. -/
theorem iobufMove_full {base data : List UInt8} {len : Nat} {offset : Int}
    (hlen : 0 < len) : iobufMove (iobufInit base len offset) data len
      = (.ok (), { base := data.take len, offset := offset + len
                   len := len, resid := 0 }) := by
  unfold iobufMove iobufInit
  dsimp only
  rw [if_neg (Nat.lt_irrefl len), if_pos hlen, Nat.sub_self, if_pos rfl]

/-- The offset of a name. -/
def nameOffset (n : Nat) : Int := (n * sfsDentrySize : Nat)

theorem usedSlots_length (fs : SfsFs) (i : Nat) :
    (usedSlots fs i).length ≤ (inodeOf fs i).blocks := by
  have hle := List.length_filter_le
    (fun slot => decide ((entryOf fs i slot).ino ≠ 0))
    (List.range (inodeOf fs i).blocks)
  rw [List.length_range] at hle
  exact hle

/-- What `sfs_getdirentry` does after `n` names. -/
theorem sfsGetdirentry_eq (h : Inv held ⟨fs, files⟩)
    (hnode : fs.inodes i = some node) (hdir : node.din.type = sfsTypeDir)
    (hslots : ∀ slot < node.din.blocks, blockAt fs i slot ≠ 0) {n : Nat}
    (hle : n ≤ node.din.blocks) (base : List UInt8) :
    sfsGetdirentry i (iobufInit base (fsMaxFnameLen + 1) (nameOffset n)) fs
      = some (match (usedSlots fs i)[n]? with
        | some slot => (.ok (), {
            base := (entryOf fs i slot).name
            offset := nameOffset (n + 1)
            len := fsMaxFnameLen + 1
            resid := 0 })
        | none => (.error .noEnt,
          iobufInit base (fsMaxFnameLen + 1) (nameOffset n)), fs) := by
  have hdin := inodeOf_loaded hnode
  have hfits : node.din.blocks < 2 ^ 32 := (h.loaded hnode).2.1.blocks
  have hoffset : (nameOffset n).toNat = n * sfsDentrySize := Int.toNat_natCast _
  have hslot : n * sfsDentrySize / sfsDentrySize % 2 ^ 32 = n := by
    rw [Nat.mul_div_cancel n (by decide), Nat.mod_eq_of_lt (by omega)]
  have hsub : sfsGetdirentrySubNolock i n fs
      = some (foundEntry fs i (usedSlots fs i)[n]?, fs) := by
    unfold sfsGetdirentrySubNolock usedSlots
    rw [Call.bind_of_eq _ (getSin_eq hnode), hdin, List.range_eq_range']
    exact sfsGetdirentrySubLoop_eq h hnode hdir hslots _ 0 n (by omega)
  have haligned : ¬ (nameOffset n < 0
      ∨ (nameOffset n).toNat % sfsDentrySize ≠ 0) := by
    rw [hoffset, Nat.mul_mod_left]
    unfold nameOffset
    omega
  unfold sfsGetdirentry iobufInit
  rw [Call.bind_of_eq _ (getSin_eq hnode)]
  dsimp only
  rw [if_neg haligned, hoffset, hslot, if_neg (Nat.not_lt.2 hle)]
  rw [Call.bind_of_eq _ hsub]
  cases hfound : (usedSlots fs i)[n]? with
  | none => rfl
  | some slot =>
      have htake : (entryOf fs i slot).name.take sfsDentrySize
          = (entryOf fs i slot).name :=
        List.take_of_length_le (Nat.le_succ_of_le (name_length _))
      have hnext : nameOffset n + (sfsDentrySize : Nat) = nameOffset (n + 1) := by
        unfold nameOffset
        rw [Nat.succ_mul]
        rfl
      have hmove := @iobufMove_full base (entryOf fs i slot).name sfsDentrySize
        (nameOffset n) (by decide)
      rw [htake, hnext] at hmove
      exact congrArg (fun r => some (r, fs)) hmove

-- ======================================================= descriptors

theorem onSfs_eq {α : Type} {m : SfsM α} {a : α} {v : Vfs}
    (h : m v.sfs = some (a, v.sfs)) : onSfs m v = some (a, v) := by
  unfold onSfs
  rw [h]
  rfl

theorem onVfs_eq {α : Type} {m : VfsM α} {a : α}
    (h : m s.vfs = some (a, s.vfs)) : onVfs m s = some (a, s) := by
  unfold onVfs
  rw [h]
  rfl

theorem OpenDir.check (h : OpenDir s fd i) :
    inodeCheck (.sfs i) s.vfs = some ((), s.vfs) := by
  obtain ⟨node, hnode, -, hle, hlt⟩ := h.loaded
  have hopens := h.opens
  have hcount : inodeRefCount (.sfs i) s.vfs
      = some (node.refCount, s.vfs) := by
    unfold inodeRefCount
    dsimp only
    rw [Call.bind_of_eq _ (onSfs_eq (getSin_eq hnode))]
    rfl
  unfold inodeCheck
  rw [Call.bind_of_eq _ hcount]
  simp only [Call.bind_eq_some, Call.get_eq_some, Call.assert_eq_some]
  exact ⟨s.vfs, s.vfs, ⟨rfl, rfl⟩, (), s.vfs, ⟨⟨hle, hopens⟩, rfl⟩,
    ⟨hlt, by omega⟩, rfl⟩

/-- A descriptor that is acquired and released is as it was. -/
theorem OpenDir.acquired (h : OpenDir s fd i) :
    ∃ s₁, fdArrayAcquire fd.toNat s = some ((), s₁) ∧ s₁.vfs = s.vfs
      ∧ getFile fd.toNat s₁ = some (s₁.fdArray fd.toNat, s₁)
      ∧ (s₁.fdArray fd.toNat).node = some (.sfs i)
      ∧ fdArrayRelease fd.toNat s₁ = some ((), s) := by
  let file := s.fdArray fd.toNat
  let file₁ : File := { file with openCount := file.openCount + 1 }
  let s₁ : Files := { s with
    fdArray := Function.update s.fdArray fd.toNat file₁ }
  have hget : ∀ t : Files,
      getFile fd.toNat t = some (t.fdArray fd.toNat, t) := fun _ => rfl
  have hself : s₁.fdArray fd.toNat = file₁ := Function.update_self _ _ _
  have hback : Function.update s₁.fdArray fd.toNat file = s.fdArray :=
    (Function.update_idem _ _ _).trans (Function.update_eq_self _ _)
  refine ⟨s₁, ?_, rfl, hget s₁, ?_, ?_⟩
  · unfold fdArrayAcquire
    rw [Call.bind_of_eq _ (hget s)]
    have hassert : Call.assert ((s.fdArray fd.toNat).status = .opened) s
        = some ((), s) := Call.assert_eq_some.2 ⟨h.status, rfl⟩
    rw [Call.bind_of_eq _ hassert]
    rfl
  · rw [hself]
    exact h.node
  · unfold fdArrayRelease
    rw [Call.bind_of_eq _ (hget s₁), hself]
    have hstatus : Call.assert (file₁.status = .opened
        ∨ file₁.status = .closed) s₁ = some ((), s₁) :=
      Call.assert_eq_some.2 ⟨Or.inl h.status, rfl⟩
    have hcount : Call.assert (0 < file₁.openCount) s₁ = some ((), s₁) := by
      refine Call.assert_eq_some.2 ⟨?_, rfl⟩
      have hpos := h.count
      show 0 < (s.fdArray fd.toNat).openCount + 1
      omega
    rw [Call.bind_of_eq _ hstatus, Call.bind_of_eq _ hcount]
    have hone : file₁.openCount - 1 = file.openCount := Int.add_sub_cancel _ 1
    have hset : setFile fd.toNat { file₁ with
        openCount := file₁.openCount - 1 } s₁ = some ((), s) := by
      rw [hone]
      show some ((), { s₁ with
        fdArray := Function.update s₁.fdArray fd.toNat file }) = _
      rw [hback]
    rw [Call.bind_of_eq _ hset, if_neg ?_]
    · rfl
    · rw [hone]
      exact Int.ne_of_gt h.count

-- =========================================================== listing

/-- What a call after `n` names returns: name `n` with the offset of the next
one, or that there is none. -/
def nextDirent (fs : SfsFs) (i n : Nat) (name : List UInt8) :
    Except Err Unit × Dirent :=
  match (listing fs i)[n]? with
  | some next => (.ok (), { offset := nameOffset (n + 1), name := next })
  | none => (.error .noEnt, { offset := nameOffset n, name := name })

theorem fileGetdirentry_eq (h : Inv held ⟨s.vfs.sfs, files⟩)
    (hopen : OpenDir s fd i)
    (hslots : ∀ slot < (inodeOf s.vfs.sfs i).blocks,
      blockAt s.vfs.sfs i slot ≠ 0) {n : Nat}
    (hle : n ≤ (inodeOf s.vfs.sfs i).blocks) (name : List UInt8) :
    fileGetdirentry fd { offset := nameOffset n, name := name } s
      = some (nextDirent s.vfs.sfs i n name, s) := by
  obtain ⟨node, hnode, hdir, -⟩ := hopen.loaded
  have hdin := inodeOf_loaded hnode
  rw [hdin] at hslots hle
  obtain ⟨s₁, hacquire, hvfs, hget, hfile, hrelease⟩ := hopen.acquired
  have hfd : fd2file fd s = some (.ok fd.toNat, s) := by
    show (if testfd fd ∧ (s.fdArray fd.toNat).status = .opened
      ∧ (s.fdArray fd.toNat).fd = fd then _ else _ : FileM (Except Err Nat)) s = _
    rw [if_pos ⟨hopen.range, hopen.status, hopen.self⟩]
    rfl
  have hnode₁ : Call.ofOption (s₁.fdArray fd.toNat).node s₁
      = some (.sfs i, s₁) := by
    rw [hfile]
    rfl
  -- the operation on the inode changes nothing
  let iob := iobufInit name (fsMaxFnameLen + 1) (nameOffset n)
  have hvop : ∀ r, sfsGetdirentry i iob s.vfs.sfs = some (r, s.vfs.sfs) →
      vopGetdirentry (.sfs i) iob s₁ = some (r, s₁) := by
    intro r hr
    rw [← hvfs] at hnode hr
    have hcheck := hopen.check
    rw [← hvfs] at hcheck
    have hassert : Call.assert (node.din.type = sfsTypeDir) s₁
        = some ((), s₁) := Call.assert_eq_some.2 ⟨hdir, rfl⟩
    unfold vopGetdirentry
    rw [Call.bind_of_eq _ (onVfs_eq hcheck)]
    dsimp only
    rw [Call.bind_of_eq _ (onVfs_eq (onSfs_eq (getSin_eq hnode)))]
    rw [Call.bind_of_eq _ hassert]
    exact onVfs_eq (onSfs_eq hr)
  have hentry := hvop _ (sfsGetdirentry_eq h hnode hdir hslots hle name)
  unfold fileGetdirentry
  rw [Call.bind_of_eq _ hfd]
  dsimp only
  rw [Call.bind_of_eq _ hacquire, Call.bind_of_eq _ hget,
    Call.bind_of_eq _ hnode₁, Call.bind_of_eq _ hentry]
  unfold nextDirent listing
  rw [List.getElem?_map]
  cases hfound : (usedSlots s.vfs.sfs i)[n]? with
  | none =>
      dsimp only [Option.map_none]
      rw [Call.bind_of_eq _ hrelease, if_neg (fun h => by cases h)]
      rfl
  | some slot =>
      dsimp only [Option.map_some]
      rw [Call.bind_of_eq _ hrelease, if_pos rfl]
      have hnext : nameOffset n + (iobufUsed {
          base := (entryOf s.vfs.sfs i slot).name
          offset := nameOffset (n + 1), len := fsMaxFnameLen + 1
          resid := 0 } : Nat) = nameOffset (n + 1) := by
        show nameOffset n + (sfsDentrySize : Nat) = _
        unfold nameOffset
        rw [Nat.succ_mul]
        rfl
      rw [hnext]
      rfl

/-- From `n` names on the calls return the rest of them. -/
theorem fileListing_eq (h : Inv held ⟨s.vfs.sfs, files⟩)
    (hopen : OpenDir s fd i)
    (hslots : ∀ slot < (inodeOf s.vfs.sfs i).blocks,
      blockAt s.vfs.sfs i slot ≠ 0) :
    ∀ fuel n name, n ≤ (listing s.vfs.sfs i).length →
      (listing s.vfs.sfs i).length < n + fuel →
      fileListing fd fuel { offset := nameOffset n, name := name } s
        = some (((listing s.vfs.sfs i).drop n, some .noEnt), s) := by
  intro fuel
  induction fuel with
  | zero =>
      intro n name hle hlt
      omega
  | succ fuel ih =>
      intro n name hle hlt
      have hblocks : n ≤ (inodeOf s.vfs.sfs i).blocks := by
        have hused := usedSlots_length s.vfs.sfs i
        unfold listing at hle
        rw [List.length_map] at hle
        omega
      have hcall := fileGetdirentry_eq h hopen hslots hblocks name
      rw [fileListing, Call.bind_of_eq _ hcall]
      unfold nextDirent
      cases hname : (listing s.vfs.sfs i)[n]? with
      | none =>
          have hend := List.getElem?_eq_none_iff.1 hname
          dsimp only
          rw [List.drop_eq_nil_of_le hend]
          rfl
      | some next =>
          obtain ⟨hn, hget⟩ := List.getElem?_eq_some_iff.1 hname
          dsimp only
          rw [Call.bind_of_eq _ (ih (n + 1) next (by omega) (by omega))]
          rw [List.drop_eq_getElem_cons hn, hget]
          rfl

/-- On every volume that a run reaches, where the slots of a directory have
blocks: calls of `file_getdirentry` from offset 0 on return the names of the
entries in use, in the order of their slots and each once, and then fail with
`-E_NOENT`; and they change nothing. -/
theorem listing_complete (himage : Consistent v₀)
    (hrun : Run FileStep v₀ ops ⟨s.vfs.sfs, files⟩) (hopen : OpenDir s fd i)
    (hslots : ∀ slot < (inodeOf s.vfs.sfs i).blocks,
      blockAt s.vfs.sfs i slot ≠ 0) (name : List UInt8) (fuel : Nat)
    (hfuel : (listing s.vfs.sfs i).length < fuel) :
    fileListing fd fuel { offset := 0, name := name } s
      = some ((listing s.vfs.sfs i, some .noEnt), s) := by
  have h := (himage.sound False).fileRun hrun
  exact fileListing_eq h.inv hopen hslots fuel 0 name (Nat.zero_le _)
    (by omega)

/-- The directory of `treeVfs` is open as descriptor 0. -/
def dirFiles : Files := { treeFiles with
  vfs := { treeVfs with opens := fun node => if node = .sfs 3 then 1 else 0 }
  fdArray := Function.update treeFiles.fdArray 0
    { status := .opened, readable := true, writable := false, fd := 0
      pos := 0, node := some (.sfs 3), openCount := 1 } }

theorem dirFiles_open : OpenDir dirFiles 0 3 where
  range := by decide
  status := rfl
  self := rfl
  node := rfl
  count := by decide
  loaded := ⟨_, rfl, rfl, by decide, by decide⟩
  opens := by decide

/-- It holds the file `f`. -/
theorem listing_complete_dir :
    fileListing 0 2 { offset := 0, name := [] } dirFiles
      = some (([[0x66]], some .noEnt), dirFiles) := by
  have hblocks : (inodeOf dirFiles.vfs.sfs 3).blocks = 1 := rfl
  have hlist : listing dirFiles.vfs.sfs 3 = [[0x66]] := by
    decide +kernel
  have hcomplete := listing_complete treeVolume_consistent
    (.nil _ : Run FileStep treeVolume [] ⟨dirFiles.vfs.sfs, {1, 3, 5}⟩)
    dirFiles_open (fun slot hlt => by
      rw [hblocks] at hlt
      obtain rfl := Nat.lt_one_iff.1 hlt
      have hne : blockAt dirFiles.vfs.sfs 3 0 = 6 := by
        decide +kernel
      rw [hne]
      decide) [] 2 (by rw [hlist]; decide)
  rw [hlist] at hcomplete
  exact hcomplete

end Ucore.Vfs
