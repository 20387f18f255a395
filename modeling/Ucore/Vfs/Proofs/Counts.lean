/-
What the calls of the VFS do to the counts of inodes.

The current directory and `bootfs` have a reference each, and what a call
hands out is a reference more. `tally` is what the counts are beyond the two
pointers, so that a call moves it by what it hands out and by what it is given.
-/
import Ucore.Sfs.Proofs.Counts
import Ucore.Vfs.Procs
import Ucore.Vfs.Proofs.Open
import Mathlib.Tactic.Abel

namespace Ucore.Vfs

open Sfs
open Call (Relates Moves Keeps)

variable {s s' : Vfs} {path : List UInt8} {node : Inode} {flags : BitVec 32}
  {α : Type}

-- =========================================================== tallies

/-- References and opens of each inode. -/
abbrev Tally := Inode → Int × Int

/-- Counts of the inode, if there is one. -/
def mark (o : Option Inode) (x : Int × Int) : Tally := fun node =>
  if o = some node then x else 0

theorem mark_neg (o : Option Inode) (x : Int × Int) : mark o (-x) = -mark o x := by
  funext node
  unfold mark
  rw [Pi.neg_apply]
  split
  case isTrue => rfl
  case isFalse => exact neg_zero.symm

/-- One reference to the inode. -/
def refTo (o : Option Inode) : Tally := mark o (1, 0)

/-- One open of it. -/
def openTo (o : Option Inode) : Tally := mark o (0, 1)

theorem refTo_neg (o : Option Inode) : mark o (-1, 0) = -refTo o :=
  mark_neg o (1, 0)

theorem openTo_neg (o : Option Inode) : mark o (0, -1) = -openTo o :=
  mark_neg o (0, 1)

/-- The counts of all inodes. -/
def counts (s : Vfs) : Tally := fun node => (s.refs node, s.opens node)

/-- The counts, without the references of the current directory and of
`bootfs`. -/
def tally (s : Vfs) : Tally := counts s - refTo s.pwd - refTo s.bootfs

/-- References to inodes of the volume. -/
def ofSfs (d : Nat → Int) : Tally
  | .sfs ino => (d ino, 0)
  | .dev _ => 0

@[simp] theorem ofSfs_zero : ofSfs 0 = 0 := by
  funext node
  cases node <;> rfl

theorem ofSfs_neg (d : Nat → Int) : ofSfs (-d) = -ofSfs d := by
  funext node
  cases node <;> rfl

theorem ofSfs_single (ino : Nat) :
    ofSfs (Pi.single ino 1) = refTo (some (.sfs ino)) := by
  funext node
  unfold refTo mark
  cases node with
  | dev id =>
      rw [if_neg (fun h => by cases h)]
      rfl
  | sfs i =>
      by_cases hi : i = ino
      · rw [hi, if_pos rfl]
        show ((Pi.single ino 1 : Nat → Int) ino, (0 : Int)) = (1, 0)
        rw [Pi.single_eq_same]
      · rw [if_neg (fun h => hi (by cases h; rfl))]
        show ((Pi.single ino 1 : Nat → Int) i, (0 : Int)) = (0, 0)
        rw [Pi.single_eq_of_ne hi]

theorem ofSfs_found (r : Except Err Nat) :
    ofSfs (found r) = refTo (r.map Inode.sfs).toOption := by
  cases r with
  | error e => exact ofSfs_zero
  | ok ino => exact ofSfs_single ino

/-- What changes the counts alone. -/
theorem tally_counts {d : Tally} (hcounts : counts s' = counts s + d)
    (hstart : SameStart s s') : tally s' = tally s + d := by
  unfold tally
  rw [hcounts, hstart.pwd, hstart.bootfs]
  abel

/-- What a call of the volume moves. -/
theorem onSfs_moves {m : SfsM α} {d : α → Nat → Int} (h : Moves refCount m d) :
    Moves tally (onSfs m) fun a => ofSfs (d a) := by
  intro s a s' hrun
  obtain ⟨fs', hm, rfl⟩ := onSfs_run hrun
  have hcounts : counts { s with sfs := fs' } = counts s + ofSfs (d a) := by
    funext node
    cases node with
    | sfs ino => exact Prod.ext (congrFun (h _ _ _ hm) ino) (add_zero _).symm
    | dev id => exact (add_zero _).symm
  exact tally_counts hcounts ⟨rfl, rfl, rfl⟩

theorem onSfs_keeps {m : SfsM α} (h : Keeps refCount m) :
    Keeps tally (onSfs m) :=
  (onSfs_moves h).congr fun _ => ofSfs_zero.symm

/-- A call that changes nothing. -/
theorem keeps_of_same {m : VfsM α} (h : Relates Eq m) : Keeps tally m :=
  Keeps.of_eq fun s a s' hrun => by rw [h s a s' hrun]

theorem inodeCheck_keeps : Keeps tally (inodeCheck node) :=
  keeps_of_same inodeCheck_same

-- ================================================= references, opens

/-- A device has some references more. -/
theorem devRefs_moves {f : Int → Int} {n : Int} (hf : ∀ k, f k = k + n)
    (id : Nat) :
    Moves tally (Call.modify fun s => { s with
        devRefs := Function.update s.devRefs id (f (s.devRefs id)) })
      fun _ => mark (some (.dev id)) (n, 0) := by
  refine Moves.modify fun s => tally_counts (funext fun node => ?_) ⟨rfl, rfl, rfl⟩
  unfold mark
  rw [Pi.add_apply]
  cases node with
  | sfs ino =>
      rw [if_neg (fun h => by cases h), add_zero]
      rfl
  | dev id' =>
      by_cases hid : id' = id
      · rw [hid, if_pos rfl]
        refine Prod.ext ?_ (add_zero _).symm
        show Function.update s.devRefs id (f (s.devRefs id)) id = _
        rw [Function.update_self, hf]
        rfl
      · rw [if_neg (fun h => hid (by cases h; rfl)), add_zero]
        refine Prod.ext ?_ rfl
        show Function.update s.devRefs id _ id' = s.devRefs id'
        exact Function.update_of_ne hid _ _

theorem vopRefInc_moves :
    Moves tally (vopRefInc node) fun _ => refTo (some node) := by
  cases node with
  | sfs ino =>
      refine (onSfs_moves inodeRefInc_moves).bind fun _ => Moves.pure ?_
      rw [ofSfs_single, sub_self]
  | dev id => exact devRefs_moves (fun _ => rfl) id

theorem vopRefDec_moves :
    Moves tally (vopRefDec node) fun _ => -refTo (some node) := by
  cases node with
  | sfs ino =>
      refine (keeps_of_same getSin_same).bind fun _ => Keeps.get.bind fun _ =>
        Keeps.assert.bind fun _ => (onSfs_moves inodeRefDec_moves).congr
          fun _ => ?_
      rw [ofSfs_neg, ofSfs_single]
  | dev id =>
      refine Keeps.get.bind fun _ => Keeps.assert.bind fun _ =>
        (devRefs_moves (fun _ => sub_eq_add_neg _ _) id).congr fun _ => ?_
      exact (refTo_neg _).symm

/-- An inode is open some times more. -/
theorem tally_opens {n : Int} (s : Vfs) :
    tally { s with opens := Function.update s.opens node (s.opens node + n) }
      = tally s + mark (some node) (0, n) := by
  refine tally_counts (funext fun node' => ?_) ⟨rfl, rfl, rfl⟩
  unfold mark
  rw [Pi.add_apply]
  by_cases hnode : node' = node
  · rw [hnode, if_pos rfl]
    refine Prod.ext (add_zero _).symm ?_
    show Function.update s.opens node (s.opens node + n) node = s.opens node + n
    exact Function.update_self _ _ _
  · rw [if_neg (fun h => hnode (by cases h; rfl)), add_zero]
    refine Prod.ext rfl ?_
    show Function.update s.opens node _ node' = s.opens node'
    exact Function.update_of_ne hnode _ _

theorem vopOpenInc_moves :
    Moves tally (vopOpenInc node) fun _ => openTo (some node) :=
  Moves.modify tally_opens

theorem vopClose_keeps : Keeps tally (vopClose node) := by
  refine inodeCheck_keeps.bind fun _ => ?_
  cases node with
  | sfs ino => exact onSfs_keeps sfsFsync_keeps
  | dev id => exact Keeps.pure

theorem vopOpenDec_moves :
    Moves tally (vopOpenDec node) fun _ => -openTo (some node) := by
  intro s u s' hrun
  unfold vopOpenDec at hrun
  rw [Call.bind_eq_some] at hrun
  obtain ⟨_, _, hget, hrun⟩ := hrun
  obtain ⟨rfl, rfl⟩ := Call.get_eq_some.1 hget
  simp only [Call.bind_eq_some, Call.assert_eq_some] at hrun
  obtain ⟨_, _, ⟨-, hs⟩, _, t, hstore, hclose⟩ := hrun
  rw [hs] at hstore
  have hkept : tally s' = tally t :=
    Keeps.eq (Moves.ite vopClose_keeps Keeps.pure) hclose
  obtain rfl := Call.modify_eq_some.1 hstore
  rw [hkept, sub_eq_add_neg, tally_opens, openTo_neg]

theorem vfsClose_moves : Moves tally (vfsClose node)
    fun _ => -(refTo (some node) + openTo (some node)) := by
  refine vopOpenDec_moves.bind fun _ => vopRefDec_moves.congr fun _ => ?_
  abel

-- =========================================================== lookups

theorem devLookup_moves {id : Nat} :
    Moves tally (devLookup id path) fun r => refTo r.toOption :=
  Moves.ite (Moves.pure rfl)
    (vopRefInc_moves.bind fun _ => Moves.pure (sub_self _))

theorem vopLookup_moves :
    Moves tally (vopLookup node path) fun r => refTo r.toOption := by
  refine inodeCheck_keeps.bind fun _ => ?_
  cases node with
  | dev id => exact devLookup_moves
  | sfs ino =>
      refine (keeps_of_same getSin_same).bind fun _ => Keeps.assert.bind fun _ =>
        (onSfs_moves sfsLookup_moves).bind fun r => Moves.pure ?_
      rw [ofSfs_found, sub_self]

theorem fsopGetRoot_moves :
    Moves tally fsopGetRoot fun root => refTo (some root) := by
  refine (onSfs_moves sfsLoadInode_moves).bind fun _ => Moves.pure ?_
  rw [ofSfs_single, sub_self]

theorem getNode_moves {o : Option Inode} :
    Moves tally (getNode o) fun r => refTo r.toOption := by
  cases o with
  | none => exact Moves.pure rfl
  | some node => exact vopRefInc_moves.bind fun _ => Moves.pure (sub_self _)

theorem vfsGetCurdir_moves :
    Moves tally vfsGetCurdir fun r => refTo r.toOption :=
  Keeps.get.bind fun _ => getNode_moves

theorem vfsGetBootfs_moves :
    Moves tally vfsGetBootfs fun r => refTo r.toOption :=
  Keeps.get.bind fun _ => getNode_moves

theorem vfsGetRoot_moves {devname : List UInt8} :
    Moves tally (vfsGetRoot devname) fun r => refTo r.toOption := by
  refine Keeps.get.bind fun s => ?_
  cases s.vdevList.find? (fun vdev => vdev.devname = devname) with
  | none => exact Moves.pure rfl
  | some vdev =>
      exact Moves.ite
        (fsopGetRoot_moves.bind fun _ => Moves.pure (sub_self _))
        (Moves.ite (Keeps.ofOption.bind fun _ =>
          vopRefInc_moves.bind fun _ => Moves.pure (sub_self _)) (Moves.pure rfl))

/-- A start of a lookup with its place in the path. -/
theorem refTo_map (r : Except Err Inode) (k : Nat) :
    refTo ((r.map fun node => (k, node)).toOption.map Prod.snd)
      = refTo r.toOption := by
  cases r <;> rfl

theorem getDevice_moves : Moves tally (getDevice path)
    fun r => refTo (r.2.toOption.map Prod.snd) := by
  unfold getDevice
  refine Moves.ite (vfsGetCurdir_moves.bind fun r => Moves.pure ?_)
    (Moves.ite (vfsGetRoot_moves.bind fun r => Moves.pure ?_)
      (Moves.ite (vfsGetBootfs_moves.bind fun r => Moves.pure ?_)
        (Keeps.assert.bind fun _ => vfsGetCurdir_moves.bind fun r => ?_)))
  · rw [refTo_map, sub_self]
  · rw [refTo_map, sub_self]
  · rw [refTo_map, sub_self]
  · cases r with
    | error e => exact Moves.pure (sub_self _)
    | ok node =>
        refine Moves.bind (d := 0) Keeps.assert fun _ =>
          fsopGetRoot_moves.bind fun root => vopRefDec_moves.bind fun _ =>
            Moves.pure ?_
        show refTo (some root) - refTo (some node) - 0 - refTo (some root)
          - -refTo (some node) = 0
        abel

theorem vfsLookup_moves : Moves tally (vfsLookup path)
    fun r => refTo r.2.toOption := by
  refine getDevice_moves.bind fun r => ?_
  obtain ⟨path', r⟩ := r
  cases r with
  | error e => exact Moves.pure (sub_self _)
  | ok start =>
      refine Moves.ite (vopLookup_moves.bind fun r => vopRefDec_moves.bind
        fun _ => Moves.pure ?_) (Moves.pure (sub_self _))
      show refTo r.toOption - refTo (some start.2) - refTo r.toOption
        - -refTo (some start.2) = 0
      abel

-- =========================================================== opening

/-- A reference to an inode and an open of it. -/
def share (o : Option Inode) : Tally := refTo o + openTo o

theorem vopOpen_keeps : Keeps tally (vopOpen node flags) := by
  refine inodeCheck_keeps.bind fun _ => ?_
  cases node with
  | dev id => exact Keeps.get.bind fun _ => Keeps.pure
  | sfs ino =>
      exact (keeps_of_same getSin_same).bind fun _ =>
        Moves.ite Keeps.pure Keeps.pure

theorem vopTruncate_keeps {len : Int} : Keeps tally (vopTruncate node len) := by
  refine inodeCheck_keeps.bind fun _ => ?_
  cases node with
  | dev id => exact Moves.panic
  | sfs ino => exact onSfs_keeps Sfs.vopTruncate_keeps

/-- `vfs_open` is given the reference that it hands out, or drops it. -/
theorem vfsOpenNode_moves : Moves tally (vfsOpenNode flags node)
    fun r => share r.toOption - refTo (some node) := by
  refine vopOpen_keeps.bind fun r => ?_
  cases r with
  | error e =>
      refine vopRefDec_moves.bind fun _ => Moves.pure ?_
      show (0 : Tally) - refTo (some node) - -refTo (some node) = 0
      abel
  | ok _ =>
      have hok : share (some node) - refTo (some node) - openTo (some node)
          = 0 := by
        unfold share
        abel
      refine vopOpenInc_moves.bind fun _ => Moves.ite
        (Moves.bind vopTruncate_keeps fun r => ?_) (Moves.pure hok)
      cases r with
      | ok _ =>
          refine Moves.pure ?_
          rw [sub_zero]
          exact hok
      | error e =>
          refine vopOpenDec_moves.bind fun _ => vopRefDec_moves.bind fun _ =>
            Moves.pure ?_
          show (0 : Tally) - refTo (some node) - openTo (some node) - 0
            - -openTo (some node) - -refTo (some node) = 0
          abel

/-- The flags are such that `vfs_open` looks the path up. -/
def LooksUpFlags (flags : BitVec 32) : Prop :=
  (accmode flags = oRdonly ∨ CanWrite flags)
    ∧ (given flags oTrunc → CanWrite flags)

/-- The open finds an inode that it was to create. -/
def Finds (s : Vfs) (path : List UInt8) (flags : BitVec 32) (node : Inode) :
    Prop :=
  given flags oCreat ∧ given flags oExcl ∧ LooksUpFlags flags
    ∧ ∃ path' s', vfsLookup path s = some ((path', .ok node), s')

theorem vfsLookupParent_moves : Moves tally (vfsLookupParent path)
    fun r => refTo (r.2.toOption.map Prod.fst) := by
  refine getDevice_moves.bind fun r => ?_
  obtain ⟨path', r⟩ := r
  cases r with
  | error e => exact Moves.pure (sub_self _)
  | ok start => exact Moves.pure (sub_self _)

/-- `vfs_open` leaves what it hands out, and the reference of the lookup where
it finds what it was to create. -/
theorem vfsOpen_cases {r : Except Err Inode}
    (hrun : vfsOpen path flags s = some (r, s')) :
    (∀ node, ¬ Finds s path flags node) ∧ tally s' = tally s + share r.toOption
      ∨ ∃ node, Finds s path flags node ∧ r = .error .fileExists
        ∧ tally s' = tally s + refTo (some node) := by
  have hnone : ∀ (e : Err) (t : Vfs), t = s →
      tally t = tally s + share (Except.error (α := Inode) e).toOption := by
    intro e t ht
    rw [ht]
    exact (add_zero _).symm
  unfold vfsOpen vfsOpenWith at hrun
  split at hrun
  case isTrue hmode =>
      obtain ⟨rfl, hs⟩ := Call.pure_eq_some.1 hrun
      refine Or.inl ⟨fun node hfinds => ?_, hnone .inval s' hs⟩
      exact hfinds.2.2.1.1.elim hmode.1 hmode.2
  case isFalse hmode =>
      split at hrun
      case isTrue htrunc =>
          obtain ⟨rfl, hs⟩ := Call.pure_eq_some.1 hrun
          refine Or.inl ⟨fun node hfinds => ?_, hnone .inval s' hs⟩
          exact htrunc.2 (hfinds.2.2.1.2 htrunc.1)
      case isFalse htrunc =>
          obtain ⟨⟨path', got⟩, t, hlookup, hrun⟩ := Call.bind_eq_some.1 hrun
          have hmoved := vfsLookup_moves s _ t hlookup
          cases got with
          | error e =>
              refine Or.inl ⟨fun node hfinds => ?_, ?_⟩
              · obtain ⟨path₁, t₁, hlookup₁⟩ := hfinds.2.2.2
                rw [hlookup] at hlookup₁
                cases hlookup₁
              · refine Eq.trans ?_ (congrArg (· + share r.toOption)
                  (hmoved.trans (add_zero _)))
                dsimp only at hrun
                split at hrun
                case isFalse =>
                    obtain ⟨rfl, rfl⟩ := Call.pure_eq_some.1 hrun
                    exact (add_zero _).symm
                case isTrue =>
                    obtain ⟨⟨path₁, parent⟩, t₁, hparent, hrun⟩ :=
                      Call.bind_eq_some.1 hrun
                    have hkept := vfsLookupParent_moves t _ t₁ hparent
                    cases parent with
                    | error e' =>
                        obtain ⟨rfl, rfl⟩ := Call.pure_eq_some.1 hrun
                        exact hkept
                    | ok dir =>
                        -- `vop_create` is NULL
                        obtain ⟨_, _, hcreate, -⟩ := Call.bind_eq_some.1 hrun
                        exact absurd hcreate Call.panic_ne_some
          | ok node =>
              have hflags : LooksUpFlags flags := by
                refine ⟨?_, fun hgiven => ?_⟩
                · by_contra hno
                  rw [not_or] at hno
                  exact hmode hno
                · by_contra hno
                  exact htrunc ⟨hgiven, hno⟩
              dsimp only at hrun
              simp only [decide_eq_true_eq] at hrun
              split at hrun
              case isTrue hboth =>
                  obtain ⟨rfl, rfl⟩ := Call.pure_eq_some.1 hrun
                  exact Or.inr ⟨node, ⟨hboth.2, hboth.1, hflags, path', s',
                    hlookup⟩, rfl, hmoved⟩
              case isFalse hnot =>
                  refine Or.inl ⟨fun node' hfinds => hnot ⟨hfinds.2.1, hfinds.1⟩,
                    ?_⟩
                  rw [vfsOpenNode_moves _ _ _ hrun, hmoved]
                  show tally s + refTo (some node) + (share r.toOption
                    - refTo (some node)) = _
                  abel

-- ============================================= the current directory

theorem vopGettype_same : Relates Eq (vopGettype node) := by
  refine inodeCheck_same.bind fun _ => ?_
  cases node with
  | dev id => exact .pure
  | sfs ino => exact getSin_same.bind fun _ => Relates.assert.bind fun _ => .pure

/-- The new current directory has a reference, and the old one none. -/
theorem setCwd_tally {dir : Option Inode} {r : Except Err Unit}
    (hrun : setCwd dir s.pwd s = some (r, s')) :
    tally s' = tally s - refTo dir := by
  unfold setCwd at hrun
  obtain ⟨_, t, hstore, hrun⟩ := Call.bind_eq_some.1 hrun
  obtain rfl := Call.modify_eq_some.1 hstore
  have hstored : tally { s with pwd := dir }
      = tally s + refTo s.pwd - refTo dir := by
    show counts s - refTo dir - refTo s.bootfs = _
    unfold tally
    abel
  cases hpwd : s.pwd with
  | none =>
      rw [hpwd] at hrun hstored
      obtain ⟨-, rfl⟩ := Call.pure_eq_some.1 hrun
      rw [hstored]
      exact congrArg (· - refTo dir) (add_zero _)
  | some node =>
      rw [hpwd] at hrun hstored
      dsimp only at hrun
      simp only [Call.bind_eq_some, Call.pure_eq_some] at hrun
      obtain ⟨_, _, hdec, -, rfl⟩ := hrun
      have hdropped : tally _ = tally _ + -refTo (some node) :=
        vopRefDec_moves _ _ _ hdec
      rw [hdropped, hstored]
      abel

theorem vfsSetCurdir_keeps {dir : Option Inode} :
    Keeps tally (vfsSetCurdir dir) := by
  refine Keeps.of_eq fun s r s' hrun => ?_
  unfold vfsSetCurdir at hrun
  obtain ⟨_, _, hget, hrun⟩ := Call.bind_eq_some.1 hrun
  obtain ⟨hs, ht⟩ := Call.get_eq_some.1 hget
  rw [hs, ht] at hrun
  by_cases hsame : s.pwd ≠ dir
  case neg =>
      rw [if_neg hsame] at hrun
      rw [(Call.pure_eq_some.1 hrun).2]
  case pos =>
      rw [if_pos hsame] at hrun
      cases dir with
      | none => exact (setCwd_tally hrun).trans (sub_zero _)
      | some node =>
          obtain ⟨r', t, htype, hrun⟩ := Call.bind_eq_some.1 hrun
          rw [← vopGettype_same _ _ _ htype] at hrun
          cases r' with
          | error e => rw [(Call.pure_eq_some.1 hrun).2]
          | ok isDir =>
              dsimp only at hrun
              split at hrun
              case isTrue => rw [(Call.pure_eq_some.1 hrun).2]
              case isFalse =>
                  obtain ⟨_, t, hinc, hrun⟩ := Call.bind_eq_some.1 hrun
                  have hpwd := (vopRefInc_start node _ _ _ hinc).pwd
                  rw [← hpwd] at hrun
                  have htaken : tally t = tally s + refTo (some node) :=
                    vopRefInc_moves _ _ _ hinc
                  rw [setCwd_tally hrun, htaken]
                  abel

theorem vfsChdir_keeps : Keeps tally (vfsChdir path) := by
  refine vfsLookup_moves.bind fun r => ?_
  obtain ⟨path', r⟩ := r
  cases r with
  | error e => exact Moves.pure (sub_self _)
  | ok node =>
      refine vfsSetCurdir_keeps.bind fun _ => vopRefDec_moves.bind fun _ =>
        Moves.pure ?_
      show (0 : Tally) - refTo (some node) - -refTo (some node) = 0
      abel

end Ucore.Vfs
