/-
The two parses of a path that `vfs_open` makes.

`get_device` computes what `parse` says, of the buffer that it is given, and
on a path `device:name` leaves a buffer that holds only the device. So the
second parse gives the first one's result on the other forms, and on this one
the device as a name in the current directory.
-/
import Ucore.Lib.Call
import Ucore.Sfs.Proofs.Dir
import Ucore.Vfs.Open
import Mathlib.Data.List.TakeWhile

namespace Ucore.Vfs

open Sfs
open Call (Relates)

variable {s s' : Vfs} {path path' name rest : List UInt8} {dir node : Inode}
  {flags : BitVec 32}

-- =================================================== what calls keep

instance : Std.Refl SameStart := ⟨fun _ => ⟨rfl, rfl, rfl⟩⟩

instance : IsTrans Vfs SameStart :=
  ⟨fun _ _ _ h h' => ⟨h'.pwd.trans h.pwd, h'.bootfs.trans h.bootfs,
    h'.vdevList.trans h.vdevList⟩⟩

theorem onSfs_run {α : Type} {m : SfsM α} {a : α}
    (hrun : onSfs m s = some (a, s')) :
    ∃ fs', m s.sfs = some (a, fs') ∧ s' = { s with sfs := fs' } := by
  obtain ⟨⟨a', fs'⟩, hm, heq⟩ := Option.map_eq_some_iff.1 hrun
  cases heq
  exact ⟨fs', hm, rfl⟩

theorem onSfs_start {α : Type} (m : SfsM α) : Relates SameStart (onSfs m) := by
  intro s a s' hrun
  obtain ⟨fs', -, rfl⟩ := onSfs_run hrun
  exact ⟨rfl, rfl, rfl⟩

theorem inodeCheck_start (node : Inode) :
    Relates SameStart (inodeCheck node) := by
  have hcount : Relates SameStart (inodeRefCount node) := by
    cases node with
    | sfs ino => exact (onSfs_start _).bind fun _ => .pure
    | dev id => exact Relates.get.bind fun _ => .pure
  exact hcount.bind fun _ => Relates.get.bind fun _ =>
    Relates.assert.bind fun _ => .assert

theorem vopRefInc_start (node : Inode) : Relates SameStart (vopRefInc node) := by
  cases node with
  | sfs ino => exact (onSfs_start _).bind fun _ => .pure
  | dev id => exact .modify fun _ => ⟨rfl, rfl, rfl⟩

theorem vopRefDec_start (node : Inode) : Relates SameStart (vopRefDec node) := by
  cases node with
  | sfs ino =>
      exact (onSfs_start _).bind fun _ => Relates.get.bind fun _ =>
        Relates.assert.bind fun _ => onSfs_start _
  | dev id =>
      exact Relates.get.bind fun _ => Relates.assert.bind fun _ =>
        .modify fun _ => ⟨rfl, rfl, rfl⟩

theorem vopLookup_start (node : Inode) (path : List UInt8) :
    Relates SameStart (vopLookup node path) := by
  refine (inodeCheck_start node).bind fun _ => ?_
  cases node with
  | sfs ino =>
      exact (onSfs_start _).bind fun _ => Relates.assert.bind fun _ =>
        (onSfs_start _).bind fun _ => .pure
  | dev id =>
      exact .ite .pure ((vopRefInc_start _).bind fun _ => .pure)

theorem getNode_start (o : Option Inode) : Relates SameStart (getNode o) := by
  cases o with
  | none => exact .pure
  | some node => exact (vopRefInc_start node).bind fun _ => .pure

theorem fsopGetRoot_start : Relates SameStart fsopGetRoot :=
  (onSfs_start _).bind fun _ => .pure

-- ========================================================== scanning

theorem plain_iff {c : UInt8} : plain c = true ↔ c ≠ colonChar ∧ c ≠ slash := by
  unfold plain
  exact decide_eq_true_iff

/-- The loop of `get_device` stops at the first colon or slash. -/
theorem scanDevice_eq (hstr : 0 ∉ path) : ∀ i, scanDevice path i
    = match path.dropWhile plain with
      | [] => (-1, -1)
      | c :: _ =>
          if c = colonChar then
            (-1, ((i + (path.takeWhile plain).length : Nat) : Int))
          else (((i + (path.takeWhile plain).length : Nat) : Int), -1) := by
  induction path with
  | nil => exact fun _ => rfl
  | cons c cs ih =>
      intro i
      rw [List.mem_cons, not_or] at hstr
      rw [scanDevice, if_neg (Ne.symm hstr.1)]
      by_cases hplain : plain c = true
      · obtain ⟨hcolon, hslash⟩ := plain_iff.1 hplain
        rw [if_neg hcolon, if_neg hslash, ih hstr.2 (i + 1)]
        rw [List.dropWhile_cons_of_pos hplain]
        rw [List.takeWhile_cons_of_pos hplain, List.length_cons]
        rw [Nat.add_right_comm, ← Nat.add_assoc]
      · rw [List.dropWhile_cons_of_neg hplain]
        rw [List.takeWhile_cons_of_neg hplain]
        dsimp only
        by_cases hcolon : c = colonChar
        · rw [if_pos hcolon, if_pos hcolon]
          rfl
        · rw [if_neg hcolon, if_neg hcolon]
          have hslash : c = slash := by
            by_contra hne
            exact hplain (plain_iff.2 ⟨hcolon, hne⟩)
          rw [if_pos hslash]
          rfl

/-- It stops at a NUL, too. -/
theorem scanDevice_nul (hname : ∀ c ∈ name, plain c = true ∧ c ≠ 0) :
    ∀ i, scanDevice (name ++ 0 :: rest) i = (-1, -1) := by
  induction name with
  | nil => exact fun _ => rfl
  | cons c cs ih =>
      intro i
      obtain ⟨hplain, hne⟩ := hname c List.mem_cons_self
      obtain ⟨hcolon, hslash⟩ := plain_iff.1 hplain
      rw [List.cons_append, scanDevice, if_neg hne, if_neg hcolon,
        if_neg hslash]
      exact ih (fun c' hc' => hname c' (List.mem_cons_of_mem c hc')) (i + 1)

theorem cString_eq (hstr : 0 ∉ name) : cString name = name := by
  unfold cString
  rw [List.takeWhile_eq_self_iff]
  intro c hc
  exact decide_eq_true fun heq => hstr (heq ▸ hc)

theorem cString_nul (hstr : 0 ∉ name) : cString (name ++ 0 :: rest) = name := by
  have hall : ∀ c ∈ name, decide (c ≠ 0) = true := fun c hc =>
    decide_eq_true fun heq => hstr (heq ▸ hc)
  unfold cString
  rw [List.takeWhile_append_of_pos hall, List.takeWhile_cons_of_neg (by simp),
    List.append_nil]

theorem drop_takeWhile (p : UInt8 → Bool) (l : List UInt8) :
    l.drop (l.takeWhile p).length = l.dropWhile p := by
  induction l with
  | nil => rfl
  | cons c cs ih =>
      by_cases hc : p c = true
      · rw [List.takeWhile_cons_of_pos hc, List.dropWhile_cons_of_pos hc]
        exact ih
      · rw [List.takeWhile_cons_of_neg hc, List.dropWhile_cons_of_neg hc]
        rfl

theorem set_end (l rest : List UInt8) (c c' : UInt8) :
    (l ++ c :: rest).set l.length c' = l ++ c' :: rest := by
  rw [List.set_append_right _ _ (Nat.le_refl _), Nat.sub_self, List.set_cons_zero]

/-- What `skipSlashes` leaves of a buffer. -/
theorem drop_skipSlashes {c : UInt8} :
    (name ++ c :: rest).drop (skipSlashes (name ++ c :: rest) name.length)
      = skip rest := by
  have hdrop : (name ++ c :: rest).drop (name.length + 1) = rest := by
    rw [← List.drop_drop, List.drop_left]
    rfl
  unfold skipSlashes skip
  rw [hdrop, ← List.drop_drop, hdrop, drop_takeWhile]

theorem skip_nul (hstr : 0 ∉ rest) : cString (skip rest) = skip rest :=
  cString_eq fun hmem => hstr ((List.dropWhile_sublist _).mem hmem)

-- ====================================================== start inodes

theorem getNode_run {o : Option Inode} {r : Except Err Inode}
    (hrun : getNode o s = some (r, s')) : r = o.elim (.error .noEnt) .ok := by
  cases o with
  | none =>
      obtain ⟨rfl, -⟩ := Call.pure_eq_some.1 hrun
      rfl
  | some node =>
      obtain ⟨_, _, -, hrest⟩ := Call.bind_eq_some.1 hrun
      obtain ⟨rfl, -⟩ := Call.pure_eq_some.1 hrest
      rfl

theorem vfsGetCurdir_run {r : Except Err Inode}
    (hrun : vfsGetCurdir s = some (r, s')) :
    r = startNode s .curdir ∧ SameStart s s' := by
  obtain ⟨t, u, hget, hnode⟩ := Call.bind_eq_some.1 hrun
  obtain ⟨rfl, rfl⟩ := Call.get_eq_some.1 hget
  exact ⟨getNode_run hnode, getNode_start _ _ _ _ hnode⟩

theorem vfsGetBootfs_run {r : Except Err Inode}
    (hrun : vfsGetBootfs s = some (r, s')) :
    r = startNode s .bootfs ∧ SameStart s s' := by
  obtain ⟨t, u, hget, hnode⟩ := Call.bind_eq_some.1 hrun
  obtain ⟨rfl, rfl⟩ := Call.get_eq_some.1 hget
  exact ⟨getNode_run hnode, getNode_start _ _ _ _ hnode⟩

theorem fsopGetRoot_run {root : Inode}
    (hrun : fsopGetRoot s = some (root, s')) :
    root = .sfs sfsBlknRoot ∧ SameStart s s' := by
  have hstart := fsopGetRoot_start _ _ _ hrun
  obtain ⟨_, _, -, hrest⟩ := Call.bind_eq_some.1 hrun
  exact ⟨(Call.pure_eq_some.1 hrest).1, hstart⟩

theorem vfsGetRoot_run {r : Except Err Inode}
    (hrun : vfsGetRoot name s = some (r, s')) :
    r = rootOf s name ∧ SameStart s s' := by
  obtain ⟨t, u, hget, hrest⟩ := Call.bind_eq_some.1 hrun
  obtain ⟨ht, hu⟩ := Call.get_eq_some.1 hget
  rw [ht, hu] at hrest
  unfold rootOf
  cases hfind : s.vdevList.find? (fun vdev => vdev.devname = name) with
  | none =>
      rw [hfind] at hrest
      obtain ⟨rfl, rfl⟩ := Call.pure_eq_some.1 hrest
      exact ⟨rfl, rfl, rfl, rfl⟩
  | some vdev =>
      rw [hfind] at hrest
      dsimp only at hrest ⊢
      split at hrest
      case isTrue hfs =>
          rw [if_pos hfs]
          obtain ⟨root, u, hroot, hpure⟩ := Call.bind_eq_some.1 hrest
          obtain ⟨rfl, rfl⟩ := Call.pure_eq_some.1 hpure
          obtain ⟨rfl, hstart⟩ := fsopGetRoot_run hroot
          exact ⟨rfl, hstart⟩
      case isFalse hfs =>
          rw [if_neg hfs]
          split at hrest
          case isTrue hmount =>
              rw [if_pos hmount]
              obtain ⟨id, u, hid, hinc⟩ := Call.bind_eq_some.1 hrest
              obtain ⟨hnode, rfl⟩ := Call.ofOption_eq_some.1 hid
              obtain ⟨_, v, hrefs, hpure⟩ := Call.bind_eq_some.1 hinc
              obtain ⟨rfl, rfl⟩ := Call.pure_eq_some.1 hpure
              rw [hnode]
              exact ⟨rfl, vopRefInc_start _ _ _ _ hrefs⟩
          case isFalse hmount =>
              rw [if_neg hmount]
              obtain ⟨rfl, rfl⟩ := Call.pure_eq_some.1 hrest
              exact ⟨rfl, rfl, rfl, rfl⟩

-- =========================================================== parsing

/-- What `get_device` returns of a start and a name: they are those that the
path denotes. -/
def Found (s : Vfs) (start : Start) (name path' : List UInt8) :
    Except Err (Nat × Inode) → Prop
  | .error e => startNode s start = .error e
  | .ok (k, node) => startNode s start = .ok node
      ∧ cString (path'.drop k) = name

theorem Found.map {start : Start} {r : Except Err Inode} {k : Nat}
    (h : r = startNode s start) (hname : cString (path'.drop k) = name) :
    Found s start name path' (r.map fun node => (k, node)) := by
  cases r with
  | error e => exact h.symm
  | ok node => exact ⟨h.symm, hname⟩

/-- The buffer that `get_device` leaves: that of a path `device:name` ends
after the device. -/
def Cut (start : Start) (path path' : List UInt8) : Prop :=
  match start with
  | .device devname => (∀ c ∈ devname, plain c = true ∧ c ≠ 0)
      ∧ ∃ rest, path' = devname ++ 0 :: rest
  | _ => path' = path

/-- A start that is found without a change of the buffer. -/
theorem curdir_found {r : Except Err (Nat × Inode)} {start : Start} {k : Nat}
    {get : VfsM (Except Err Inode)}
    (hget : ∀ {r s'}, get s = some (r, s') →
      r = startNode s start ∧ SameStart s s')
    (hname : cString (path.drop k) = name)
    (hrun : (get >>= fun ret => pure (path, ret.map fun node => (k, node))) s
      = some ((path', r), s')) :
    SameStart s s' ∧ Found s start name path' r ∧ path' = path := by
  obtain ⟨ret, t, hcall, hpure⟩ := Call.bind_eq_some.1 hrun
  obtain ⟨hout, rfl⟩ := Call.pure_eq_some.1 hpure
  obtain ⟨rfl, rfl⟩ := Prod.mk.inj hout
  obtain ⟨hret, hstart⟩ := hget hcall
  exact ⟨hstart, Found.map hret hname, rfl⟩

/-- The third form, `:name`. -/
theorem curroot_found {r : Except Err (Nat × Inode)}
    (hname : cString (path.drop (skipSlashes path 0)) = name)
    (hrun : (do
      match ← vfsGetCurdir with
      | .error e => return (path, .error e)
      | .ok node =>
          Call.assert (node.inFs = true)
          let root ← fsopGetRoot
          vopRefDec node
          return (path, .ok (skipSlashes path 0, root)) :
        VfsM (List UInt8 × Except Err (Nat × Inode))) s
      = some ((path', r), s')) :
    SameStart s s' ∧ Found s .curroot name path' r ∧ path' = path := by
  obtain ⟨ret, t, hcall, hrest⟩ := Call.bind_eq_some.1 hrun
  obtain ⟨rfl, hstart⟩ := vfsGetCurdir_run hcall
  unfold startNode at hrest
  cases hpwd : s.pwd with
  | none =>
      rw [hpwd] at hrest
      obtain ⟨hout, rfl⟩ := Call.pure_eq_some.1 hrest
      obtain ⟨rfl, rfl⟩ := Prod.mk.inj hout
      refine ⟨hstart, ?_, rfl⟩
      unfold Found startNode
      rw [hpwd]
      rfl
  | some node =>
      rw [hpwd] at hrest
      dsimp only [Option.elim] at hrest
      simp only [Call.bind_eq_some, Call.assert_eq_some,
        Call.pure_eq_some] at hrest
      obtain ⟨_, t₁, ⟨-, rfl⟩, root, t₂, hroot, _, t₃, hdec, hout, rfl⟩ := hrest
      obtain ⟨rfl, rfl⟩ := Prod.mk.inj hout
      obtain ⟨rfl, hstart₂⟩ := fsopGetRoot_run hroot
      have hstart₃ := vopRefDec_start _ _ _ _ hdec
      refine ⟨trans_of SameStart (trans_of SameStart hstart hstart₂) hstart₃,
        ⟨?_, hname⟩, rfl⟩
      unfold startNode
      rw [hpwd]
      rfl

theorem getDevice_run {r : Except Err (Nat × Inode)} (hstr : 0 ∉ path)
    (hrun : getDevice path s = some ((path', r), s')) :
    SameStart s s' ∧ Found s (parse path).1 (parse path).2 path' r
      ∧ Cut (parse path).1 path path' := by
  have hsplit : path.takeWhile plain ++ path.dropWhile plain = path :=
    List.takeWhile_append_dropWhile
  have hhead : ∀ c ∈ path.takeWhile plain, plain c = true ∧ c ≠ 0 := by
    intro c hc
    refine ⟨List.mem_takeWhile_imp hc, fun heq => hstr ?_⟩
    rw [← heq]
    exact (List.takeWhile_sublist _).mem hc
  have hstr₀ : cString (path.drop 0) = path := cString_eq hstr
  unfold getDevice at hrun
  rw [scanDevice_eq hstr 0] at hrun
  unfold parse
  cases htail : path.dropWhile plain with
  | nil =>
      rw [htail] at hrun
      dsimp only at hrun ⊢
      rw [if_pos ⟨by decide, by decide⟩] at hrun
      obtain ⟨hstart, hfound, hpath⟩ :=
        curdir_found vfsGetCurdir_run hstr₀ hrun
      exact ⟨hstart, hfound, hpath⟩
  | cons c rest =>
      rw [htail] at hrun hsplit
      dsimp only at hrun ⊢
      have hrest : 0 ∉ rest := by
        intro hmem
        apply hstr
        rw [← hsplit]
        exact List.mem_append_right _ (List.mem_cons_of_mem c hmem)
      -- the name after the first colon or slash
      have hname : cString (path.drop
          (skipSlashes path (path.takeWhile plain).length)) = skip rest := by
        have hdrop : (path.takeWhile plain ++ c :: rest).drop (skipSlashes
            (path.takeWhile plain ++ c :: rest)
            (path.takeWhile plain).length) = skip rest := drop_skipSlashes
        rw [hsplit] at hdrop
        rw [hdrop]
        exact skip_nul hrest
      by_cases hempty : path.takeWhile plain = []
      · rw [hempty, List.nil_append] at hsplit
        rw [hempty] at hrun hname
        have hfirst : path.head? = some c := by
          rw [← hsplit]
          rfl
        rw [hfirst] at hrun
        by_cases hcolon : c = colonChar
        · subst hcolon
          rw [if_pos rfl] at hrun
          rw [if_pos rfl, if_pos hempty]
          dsimp only at hrun ⊢
          rw [if_neg (by decide), if_neg (by decide), if_neg (by decide)]
            at hrun
          obtain ⟨_, t, hassert, hcall⟩ := Call.bind_eq_some.1 hrun
          obtain ⟨-, rfl⟩ := Call.assert_eq_some.1 hassert
          obtain ⟨hstart, hfound, hpath⟩ := curroot_found hname hcall
          exact ⟨hstart, hfound, hpath⟩
        · have hslash : c = slash := by
            have hstop : ¬ plain c = true := by
              have hfirst' := List.head?_dropWhile_not plain path
              rw [htail] at hfirst'
              exact Bool.eq_false_iff.1 hfirst'
            by_contra hne
            exact hstop (plain_iff.2 ⟨hcolon, hne⟩)
          subst hslash
          rw [if_neg hcolon] at hrun
          rw [if_neg hcolon, if_pos hempty]
          dsimp only at hrun ⊢
          rw [if_neg (by decide), if_neg (by decide), if_pos rfl] at hrun
          obtain ⟨hstart, hfound, hpath⟩ :=
            curdir_found vfsGetBootfs_run hname hrun
          exact ⟨hstart, hfound, hpath⟩
      · have hpos : 0 < (path.takeWhile plain).length :=
          List.length_pos_iff.2 hempty
        by_cases hcolon : c = colonChar
        · rw [if_pos hcolon] at hrun
          rw [if_pos hcolon, if_neg hempty]
          dsimp only at hrun ⊢
          rw [if_neg (by omega), if_pos (by omega), Int.toNat_natCast,
            Nat.zero_add] at hrun
          have hset := set_end (path.takeWhile plain) rest c 0
          rw [hsplit] at hset
          have hdevname : cString (path.takeWhile plain ++ 0 :: rest)
              = path.takeWhile plain :=
            cString_nul fun hmem => (hhead 0 hmem).2 rfl
          rw [hset, hdevname] at hrun
          obtain ⟨ret, t, hcall, hpure⟩ := Call.bind_eq_some.1 hrun
          obtain ⟨hout, rfl⟩ := Call.pure_eq_some.1 hpure
          obtain ⟨rfl, rfl⟩ := Prod.mk.inj hout
          obtain ⟨hret, hstart⟩ := vfsGetRoot_run hcall
          refine ⟨hstart, Found.map hret ?_, hhead, rest, rfl⟩
          rw [drop_skipSlashes]
          exact skip_nul hrest
        · rw [if_neg hcolon] at hrun
          rw [if_neg hcolon, if_neg hempty]
          dsimp only at hrun ⊢
          rw [if_pos (by omega)] at hrun
          obtain ⟨hstart, hfound, hpath⟩ :=
            curdir_found vfsGetCurdir_run hstr₀ hrun
          exact ⟨hstart, hfound, hpath⟩

/-- A buffer that holds a device name only is parsed as a name. -/
theorem getDevice_nul {r : Except Err (Nat × Inode)}
    (hname : ∀ c ∈ name, plain c = true ∧ c ≠ 0)
    (hrun : getDevice (name ++ 0 :: rest) s = some ((path', r), s')) :
    Found s .curdir name path' r := by
  have hstr : 0 ∉ name := fun hmem => (hname 0 hmem).2 rfl
  unfold getDevice at hrun
  rw [scanDevice_nul hname 0] at hrun
  dsimp only at hrun
  rw [if_pos ⟨by decide, by decide⟩] at hrun
  have hdrop : cString ((name ++ 0 :: rest).drop 0) = name := cString_nul hstr
  exact (curdir_found vfsGetCurdir_run hdrop hrun).2.1

-- ========================================================== creation

theorem vfsLookup_cut {r : Except Err Inode} (hstr : 0 ∉ path)
    (hrun : vfsLookup path s = some ((path', r), s')) :
    SameStart s s' ∧ Cut (parse path).1 path path' := by
  obtain ⟨⟨buf, ret⟩, t, hget, hrest⟩ := Call.bind_eq_some.1 hrun
  obtain ⟨hstart, -, hcut⟩ := getDevice_run hstr hget
  cases ret with
  | error e =>
      obtain ⟨hout, rfl⟩ := Call.pure_eq_some.1 hrest
      obtain ⟨rfl, -⟩ := Prod.mk.inj hout
      exact ⟨hstart, hcut⟩
  | ok a =>
      obtain ⟨k, node⟩ := a
      dsimp only at hrest
      split at hrest
      case isTrue =>
          obtain ⟨ret, t₁, hlookup, hrest⟩ := Call.bind_eq_some.1 hrest
          obtain ⟨_, t₂, hdec, hpure⟩ := Call.bind_eq_some.1 hrest
          obtain ⟨hout, rfl⟩ := Call.pure_eq_some.1 hpure
          obtain ⟨rfl, -⟩ := Prod.mk.inj hout
          have hstart₁ := vopLookup_start _ _ _ _ _ hlookup
          have hstart₂ := vopRefDec_start _ _ _ _ hdec
          exact ⟨trans_of SameStart (trans_of SameStart hstart hstart₁)
            hstart₂, hcut⟩
      case isFalse =>
          obtain ⟨hout, rfl⟩ := Call.pure_eq_some.1 hrest
          obtain ⟨rfl, -⟩ := Prod.mk.inj hout
          exact ⟨hstart, hcut⟩

theorem vfsLookupParent_run
    (hrun : vfsLookupParent path s = some ((path', .ok (dir, name)), s')) :
    ∃ k, getDevice path s = some ((path', .ok (k, dir)), s')
      ∧ name = cString (path'.drop k) := by
  obtain ⟨⟨buf, ret⟩, t, hget, hrest⟩ := Call.bind_eq_some.1 hrun
  cases ret with
  | error e =>
      obtain ⟨hout, -⟩ := Call.pure_eq_some.1 hrest
      cases (Prod.mk.inj hout).2
  | ok a =>
      obtain ⟨k, node⟩ := a
      obtain ⟨hout, rfl⟩ := Call.pure_eq_some.1 hrest
      obtain ⟨rfl, hok⟩ := Prod.mk.inj hout
      cases hok
      exact ⟨k, hget, rfl⟩

/-- The start and the name are those of the first parse, or after a device
those of its name in the current directory. -/
theorem lookups_denote {r : Except Err Inode} {path₁ path₂ : List UInt8}
    {s₁ s₂ : Vfs} (hstr : 0 ∉ path)
    (hlookup : vfsLookup path s = some ((path₁, r), s₁))
    (hparent : vfsLookupParent path₁ s₁ = some ((path₂, .ok (dir, name)), s₂)) :
    Denotes s path dir name ↔ ∀ devname, (parse path).1 = .device devname →
      rootOf s devname = startNode s .curdir ∧ (parse path).2 = devname := by
  obtain ⟨hstart, hcut⟩ := vfsLookup_cut hstr hlookup
  obtain ⟨k, hget, rfl⟩ := vfsLookupParent_run hparent
  have hnode : ∀ start, startNode s₁ start = startNode s start := by
    intro start
    unfold startNode rootOf
    rw [hstart.pwd, hstart.bootfs, hstart.vdevList]
  unfold Denotes
  cases hform : (parse path).1 with
  | device devname =>
      rw [hform] at hcut
      obtain ⟨hplain, rest, rfl⟩ := hcut
      have hfound : startNode s₁ .curdir = .ok dir
          ∧ cString (path₂.drop k) = devname := getDevice_nul hplain hget
      rw [hnode] at hfound
      rw [hfound.2, hfound.1]
      constructor
      · intro hdenotes devname' heq
        cases heq
        exact hdenotes
      · exact fun hall => hall devname rfl
  | _ =>
      rw [hform] at hcut
      have hsame : path₁ = path := hcut
      rw [hsame] at hget
      obtain ⟨-, hfound, -⟩ := getDevice_run hstr hget
      rw [hform] at hfound
      have hboth := hfound
      unfold Found at hboth
      rw [hnode] at hboth
      exact ⟨fun _ => by rintro _ ⟨⟩, fun _ => ⟨hboth.1, hboth.2.symm⟩⟩

/-- Both lookups, and the call of `vop_create` after them. -/
def Reaches (s : Vfs) (path : List UInt8) (flags : BitVec 32) (dir : Inode)
    (name : List UInt8) (s₂ : Vfs) : Prop :=
  given flags oCreat ∧ ∃ path₁ s₁ path₂,
    vfsLookup path s = some ((path₁, .error .noEnt), s₁)
    ∧ vfsLookupParent path₁ s₁ = some ((path₂, .ok (dir, name)), s₂)

/-- An open gets to `vop_create`, or does the same whatever that does. -/
theorem vfsOpenWith_cases (s : Vfs) (path : List UInt8) (flags : BitVec 32) :
    (∃ o, ∀ create, vfsOpenWith create path flags s = o)
      ∨ ∃ dir name s₂, Reaches s path flags dir name s₂ ∧ ∀ create,
        vfsOpenWith create path flags s
          = (create dir name (decide (given flags oExcl))
            >>= afterCreate flags) s₂ := by
  unfold vfsOpenWith
  split
  case isTrue => exact Or.inl ⟨_, fun _ => rfl⟩
  case isFalse =>
      split
      case isTrue => exact Or.inl ⟨_, fun _ => rfl⟩
      case isFalse =>
          cases hlookup : vfsLookup path s with
          | none =>
              exact Or.inl ⟨none, fun _ => Call.bind_of_none _ hlookup⟩
          | some a =>
              obtain ⟨⟨path₁, ret⟩, s₁⟩ := a
              simp only [Call.bind_of_eq _ hlookup]
              cases ret with
              | ok node => exact Or.inl ⟨_, fun _ => rfl⟩
              | error e =>
                  dsimp only
                  by_cases hcreat : e = .noEnt ∧ given flags oCreat
                  · simp only [if_pos hcreat]
                    obtain ⟨rfl, hgiven⟩ := hcreat
                    cases hparent : vfsLookupParent path₁ s₁ with
                    | none =>
                        exact Or.inl ⟨none, fun _ =>
                          Call.bind_of_none _ hparent⟩
                    | some a =>
                        obtain ⟨⟨path₂, ret⟩, s₂⟩ := a
                        simp only [Call.bind_of_eq _ hparent]
                        cases ret with
                        | error e => exact Or.inl ⟨_, fun _ => rfl⟩
                        | ok a =>
                            obtain ⟨dir, name⟩ := a
                            refine Or.inr ⟨dir, name, s₂, ⟨hgiven, path₁, s₁,
                              path₂, hlookup, hparent⟩, fun create => ?_⟩
                            rfl
                  · simp only [if_neg hcreat]
                    exact Or.inl ⟨_, fun _ => rfl⟩

/-- After some answer of `vop_create` the open returns. -/
theorem afterCreate_returns (s : Vfs) (flags : BitVec 32) :
    ∃ answer : VfsM (Except Err Inode), ∀ t,
      (answer >>= afterCreate flags) t ≠ none := by
  let good : Vfs := { s with
    dOpen := fun _ _ => .error .inval, devRefs := fun _ => 2
    opens := fun _ => 0 }
  let answer : VfsM (Except Err Inode) := fun _ => some (.ok (.dev 0), good)
  refine ⟨answer, fun t => ?_⟩
  have hcheck : inodeCheck (.dev 0) good = some ((), good) := rfl
  obtain ⟨e, hopen⟩ : ∃ e, vopOpen (.dev 0) flags good
      = some (.error e, good) := by
    unfold vopOpen
    rw [Call.bind_of_eq _ hcheck]
    have hget : (Call.get : VfsM Vfs) good = some (good, good) := rfl
    dsimp only
    rw [Call.bind_of_eq _ hget]
    unfold devOpen
    split
    case isTrue => exact ⟨_, rfl⟩
    case isFalse => exact ⟨_, rfl⟩
  have hanswer : answer t = some (.ok (.dev 0), good) := rfl
  rw [Call.bind_of_eq _ hanswer]
  show vfsOpenNode flags (.dev 0) good ≠ none
  unfold vfsOpenNode
  rw [Call.bind_of_eq _ hopen]
  rintro ⟨⟩

/-- The directory and the name that `vop_create` is called with are those of
the two lookups. -/
theorem CreateCall.reaches (hcall : CreateCall s path flags dir name) :
    ∃ s₂, Reaches s path flags dir name s₂ := by
  obtain ⟨t, hcall⟩ := hcall
  obtain ⟨answer, hanswer⟩ := afterCreate_returns s flags
  rcases vfsOpenWith_cases s path flags with ⟨o, ho⟩
    | ⟨dir', name', s₂, hreaches, hopen⟩
  · exfalso
    -- an operation that panics and one that answers give the same
    have hpanic := hcall fun _ _ _ => Call.panic
    have hreturn := hcall fun _ _ _ => answer
    rw [ho] at hpanic hreturn
    rw [hreturn] at hpanic
    exact hanswer t (hpanic.trans (Call.bind_of_none _ rfl))
  · refine ⟨s₂, ?_⟩
    by_contra hother
    have hne : ¬ (dir' = dir ∧ name' = name) := by
      intro hsame
      rw [hsame.1, hsame.2] at hreaches
      exact hother hreaches
    -- an operation that answers for these arguments only
    let create : Inode → List UInt8 → Bool → VfsM (Except Err Inode) :=
      fun d n _ => if d = dir ∧ n = name then answer else Call.panic
    have hreturn := (hopen create).symm.trans (hcall create)
    have hleft : create dir' name' (decide (given flags oExcl))
        = Call.panic := if_neg hne
    have hright : create dir name (decide (given flags oExcl))
        = answer := if_pos ⟨rfl, rfl⟩
    rw [hleft, hright] at hreturn
    exact hanswer t (hreturn.symm.trans (Call.bind_of_none _ rfl))

/-- The directory and the name that `vfs_open` creates a file with are those
that the path denotes, unless it is of the form `device:name` and this is
not the device's name in its root that is the current directory. -/
theorem create_denoted (hstr : 0 ∉ path)
    (hcall : CreateCall s path flags dir name) :
    Denotes s path dir name ↔ ∀ devname, (parse path).1 = .device devname →
      rootOf s devname = startNode s .curdir
        ∧ (parse path).2 = devname := by
  obtain ⟨s₂, -, path₁, s₁, path₂, hlookup, hparent⟩ := hcall.reaches
  exact lookups_denote hstr hlookup hparent

-- ======================================================== an example

/-- Both lookups are made, so `vop_create` is called. -/
theorem Reaches.createCall {s₂ : Vfs} (h : Reaches s path flags dir name s₂)
    (hwrite : CanWrite flags) : CreateCall s path flags dir name := by
  obtain ⟨hcreat, path₁, s₁, path₂, hlookup, hparent⟩ := h
  refine ⟨s₂, fun create => ?_⟩
  unfold vfsOpenWith
  rw [if_neg fun hboth => hboth.2 hwrite, if_neg fun hboth => hboth.2 hwrite]
  rw [Call.bind_of_eq _ hlookup]
  dsimp only
  rw [if_pos ⟨rfl, hcreat⟩, Call.bind_of_eq _ hparent]
  rfl

/-- The bytes of `disk0`. -/
def disk0 : List UInt8 := [0x64, 0x69, 0x73, 0x6B, 0x30]

/-- The volume is mounted on `disk0`, and its directory is the current
one. -/
def treeVfs : Vfs where
  sfs := treeFs
  pwd := some (.sfs 3)
  bootfs := none
  vdevList := [{ devname := disk0, devnode := some 0, fs := true
                 mountable := true }]
  dOpen _ _ := .ok ()
  devRefs _ := 1
  opens _ := 0

/-- The two lookups of an open with `O_CREAT`. -/
def bothLookups (path : List UInt8) (s : Vfs) :
    Option (Except Err Inode × Except Err (Inode × List UInt8)) :=
  (vfsLookup path s).bind fun a =>
    (vfsLookupParent a.1.1 a.2).map fun b => (a.1.2, b.1.2)

theorem bothLookups_reaches
    (h : bothLookups path s = some (.error .noEnt, .ok (dir, name)))
    (hcreat : given flags oCreat) :
    ∃ s₂, Reaches s path flags dir name s₂ := by
  obtain ⟨⟨⟨path₁, r₁⟩, s₁⟩, hlookup, hrest⟩ := Option.bind_eq_some_iff.1 h
  obtain ⟨⟨⟨path₂, r₂⟩, s₂⟩, hparent, hout⟩ := Option.map_eq_some_iff.1 hrest
  obtain ⟨rfl, rfl⟩ := Prod.mk.inj hout
  exact ⟨s₂, hcreat, path₁, s₁, path₂, hlookup, hparent⟩

/-- A new name `x` is created in the current directory. -/
theorem create_denoted_name :
    CreateCall treeVfs [0x78] (oWronly ||| oCreat) (.sfs 3) [0x78]
      ∧ Denotes treeVfs [0x78] (.sfs 3) [0x78] := by
  have hboth : bothLookups [0x78] treeVfs
      = some (.error .noEnt, .ok (.sfs 3, [0x78])) := by
    decide +kernel
  have hcreat : given (oWronly ||| oCreat) oCreat := by decide
  have hwrite : CanWrite (oWronly ||| oCreat) := by decide
  obtain ⟨s₂, hreaches⟩ := bothLookups_reaches hboth hcreat
  have hcall := hreaches.createCall hwrite
  exact ⟨hcall, (create_denoted (by decide) hcall).2 (fun _ h => by cases h)⟩

/-- A new name `x` in the root of `disk0` is created as `disk0` in the
current directory. -/
theorem create_denoted_device :
    CreateCall treeVfs (disk0 ++ [colonChar, 0x78]) (oWronly ||| oCreat)
        (.sfs 3) disk0
      ∧ ¬ Denotes treeVfs (disk0 ++ [colonChar, 0x78]) (.sfs 3) disk0
      ∧ Denotes treeVfs (disk0 ++ [colonChar, 0x78]) (.sfs 1) [0x78] := by
  have hboth : bothLookups (disk0 ++ [colonChar, 0x78]) treeVfs
      = some (.error .noEnt, .ok (.sfs 3, disk0)) := by
    decide +kernel
  have hcreat : given (oWronly ||| oCreat) oCreat := by decide
  have hwrite : CanWrite (oWronly ||| oCreat) := by decide
  obtain ⟨s₂, hreaches⟩ := bothLookups_reaches hboth hcreat
  refine ⟨hreaches.createCall hwrite, fun hdenotes => ?_, ?_⟩
  · have hname : [0x78] = disk0 := hdenotes.2
    cases hname
  · exact ⟨rfl, rfl⟩

end Ucore.Vfs
