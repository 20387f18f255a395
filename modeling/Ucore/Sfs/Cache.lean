/-
kern/fs/sfs/sfs_inode.c, kern/fs/vfs/inode.c: the inodes that a file system
has in memory, when threads share it.

A thread runs until it waits: for `fs_sem`, or with it for a transfer. There
others run. What the disk says and where `kmalloc` finds memory are chosen
with the action; transfers succeed. `vop_fsync` waits or does not, whatever
`dirty` says. An address stands for a `struct inode` with its `sfs_inode`.

References are counted where they are kept, whoever keeps them (`held`), and
are dropped only there. `log` says of each address what became of it, the
oldest first. No function reads these two.
-/
import Ucore.Lib.Trace
import Mathlib.Data.Finset.Card
import Mathlib.Logic.Function.Basic
import Mathlib.Algebra.Group.Nat.Defs

namespace Ucore.Sfs.Cache

variable {θ : Type}

-- ============================================================= state

/-- Where a thread is: outside of a call, in `sfs_load_inode` before `fs_sem`
or in `sfs_rbuf`, in `sfs_reclaim` before `fs_sem` or in `vop_fsync`. -/
inductive Pc where
  | idle
  | loading (ino : Nat)
  | reading (ino : Nat)
  | reclaiming (n : Nat)
  | flushing (n : Nat)
deriving DecidableEq

structure Node where
  ino : Nat
  refCount : Int
  reclaimCount : Int
  nlinks : Nat

/-- What becomes of an address. -/
inductive Event where
  | created (ino : Nat)
  | got
  | dropped
  | freed

structure World (θ : Type) where
  nodes : Nat → Option Node
  inodeList : List Nat
  hashList : Nat → List Nat
  fsSem : Option θ
  pc : θ → Pc
  held : Nat → Nat
  log : Nat → List Event

/-- Why the kernel stops: `sfs_load_inode` finds a block that is not in use
or an inode without links; `sfs_reclaim` comes to an inode without links,
from where on it is not modelled; another assertion fails, or memory is used
that is free. -/
inductive Stop where
  | notInuse
  | noLinks
  | unlinked
  | failed
deriving DecidableEq

/-- `sin_hashfn`. -/
def sinHashfn (ino : Nat) : Nat := ino * 0x9e370001 % 2 ^ 32 / 2 ^ (32 - 10)

def World.goto [DecidableEq θ] (w : World θ) (t : θ) (pc : Pc) : World θ :=
  { w with pc := Function.update w.pc t pc }

/-- A change of a node in memory, with its references. -/
def World.setNode (w : World θ) (n : Nat) (node : Node) (held : Nat)
    (es : List Event) : World θ :=
  { w with
    nodes := Function.update w.nodes n (some node)
    held := Function.update w.held n held
    log := Function.update w.log n (w.log n ++ es) }

-- ===================================================== the functions

/-- The loop of `lookup_sfs_nolock`. -/
def find (w : World θ) (ino : Nat) : Option Nat :=
  (w.hashList (sinHashfn ino)).find? fun n => (w.nodes n).any fun node => node.ino = ino

/-- `vop_ref_inc`, with the rest of `lookup_sfs_nolock` if it is called
there. -/
def refInc (node : Node) (lookup : Bool) : Node :=
  { node with
    refCount := node.refCount + 1
    reclaimCount :=
      if lookup = true ∧ node.refCount + 1 = 1 then node.reclaimCount + 1
      else node.reclaimCount }

/-- `ref_count` and `reclaim_count`, one less. -/
def Node.dropped (node : Node) : Node := { node with refCount := node.refCount - 1 }

def Node.less (node : Node) : Node :=
  { node with reclaimCount := node.reclaimCount - 1 }

/-- `sfs_create_inode` and `sfs_set_links`. -/
def create (w : World θ) (n ino nlinks : Nat) : World θ :=
  { w.setNode n { ino, refCount := 1, reclaimCount := 1, nlinks } 1 [.created ino] with
    inodeList := n :: w.inodeList
    hashList := Function.update w.hashList (sinHashfn ino)
      (n :: w.hashList (sinHashfn ino)) }

/-- `sfs_remove_links` and `vop_kill`. -/
def kill (w : World θ) (n ino : Nat) : World θ :=
  { w with
    nodes := Function.update w.nodes n none
    inodeList := w.inodeList.erase n
    hashList := Function.update w.hashList (sinHashfn ino)
      ((w.hashList (sinHashfn ino)).erase n)
    log := Function.update w.log n (w.log n ++ [.freed]) }

-- ======================================================= the threads

/-- What a thread does next. `load` calls `sfs_load_inode`, `loadLocked` is
when it has `fs_sem`, with whether `kmalloc` has memory for the disk inode
and whether its block is in use, and `read` is when the block is read, with
where `kmalloc` has memory for the node. `refInc` and `refDec` are of a
reference that is kept. `reclaimLocked` is when `sfs_reclaim` has `fs_sem`,
and `flushed` when `vop_fsync` returns. -/
inductive Action where
  | load (ino : Nat)
  | loadLocked (memory inuse : Bool)
  | read (nlinks : Nat) (memory : Option Nat)
  | refInc (n : Nat)
  | refDec (n : Nat)
  | reclaimLocked
  | flushed

variable [DecidableEq θ]

/-- `sfs_load_inode`, once it has `fs_sem`. -/
def loadLocked (w : World θ) (t : θ) (ino : Nat) (memory inuse : Bool) :
    Except Stop (World θ) :=
  match find w ino with
  | some n =>
      match w.nodes n with
      | none => .error .failed
      | some node =>
          .ok ((w.setNode n (refInc node true) (w.held n + 1) [.got]).goto t .idle)
  | none =>
      if memory = false then .ok (w.goto t .idle)
      else if inuse = false then .error .notInuse
      else .ok ({ w with fsSem := some t }.goto t (.reading ino))

/-- `sfs_load_inode`, once the block is read. -/
def loadRead (w : World θ) (t : θ) (ino nlinks : Nat) (memory : Option Nat) :
    Except Stop (World θ) :=
  if nlinks = 0 then .error .noLinks
  else
    match memory with
    | none => .ok ({ w with fsSem := none }.goto t .idle)
    | some n => .ok ({ create w n ino nlinks with fsSem := none }.goto t .idle)

/-- `inode_ref_dec`, up to `sfs_reclaim` if it is called. -/
def refDec (w : World θ) (t : θ) (n : Nat) (node : Node) : Except Stop (World θ) :=
  if 0 < node.refCount then
    .ok ((w.setNode n node.dropped (w.held n - 1) [.dropped]).goto t
      (if node.dropped.refCount = 0 then .reclaiming n else .idle))
  else .error .failed

/-- `sfs_reclaim`, once it has `fs_sem`. -/
def reclaimLocked (w : World θ) (t : θ) (n : Nat) : Except Stop (World θ) :=
  match w.nodes n with
  | none => .error .failed
  | some node =>
      if 0 < node.reclaimCount then
        if node.less.reclaimCount ≠ 0 ∨ node.refCount ≠ 0 then
          .ok ((w.setNode n node.less (w.held n) []).goto t .idle)
        else if node.nlinks = 0 then .error .unlinked
        else
          .ok ({ w.setNode n node.less (w.held n) [] with fsSem := some t }.goto t
            (.flushing n))
      else .error .failed

/-- `sfs_reclaim`, once the inode is written. -/
def reclaimFlushed (w : World θ) (t : θ) (n : Nat) : Except Stop (World θ) :=
  match w.nodes n with
  | none => .error .failed
  | some node =>
      if node.refCount = 0 then
        .ok ({ kill w n node.ino with fsSem := none }.goto t .idle)
      else .error .failed

/-- An action of a thread; one it is not at, and one that needs `fs_sem` when
another thread has it, changes nothing. Memory that is allocated was free. -/
def step (w : World θ) (t : θ) : Action → Except Stop (World θ)
  | .load ino => .ok (if w.pc t = .idle then w.goto t (.loading ino) else w)
  | .loadLocked memory inuse =>
      match w.pc t, w.fsSem with
      | .loading ino, none => loadLocked w t ino memory inuse
      | _, _ => .ok w
  | .read nlinks memory =>
      match w.pc t with
      | .reading ino =>
          if ∀ n ∈ memory, (w.nodes n).isNone then loadRead w t ino nlinks memory
          else .ok w
      | _ => .ok w
  | .refInc n =>
      if w.pc t = .idle ∧ 0 < w.held n then
        match w.nodes n with
        | none => .error .failed
        | some node => .ok (w.setNode n (refInc node false) (w.held n + 1) [.got])
      else .ok w
  | .refDec n =>
      if w.pc t = .idle ∧ 0 < w.held n then
        match w.nodes n with
        | none => .error .failed
        | some node => refDec w t n node
      else .ok w
  | .reclaimLocked =>
      match w.pc t, w.fsSem with
      | .reclaiming n, none => reclaimLocked w t n
      | _, _ => .ok w
  | .flushed =>
      match w.pc t with
      | .flushing n => reclaimFlushed w t n
      | _ => .ok w

/-- Actions of threads, in any order. -/
def execAll : World θ → List (θ × Action) → Except Stop (World θ)
  | w, [] => .ok w
  | w, (t, a) :: acts => (step w t a).bind fun w => execAll w acts

/-- A file system that was mounted, with no thread in a call. -/
def start : World θ where
  nodes _ := none
  inodeList := []
  hashList _ := []
  fsSem := none
  pc _ := .idle
  held _ := 0
  log _ := []

-- ==================================================== the life cycle

/-- What is at an address: nothing, or an inode with the number of its
references, the threads that are about to reclaim it, and the thread that
does. -/
inductive Life (θ : Type) where
  | absent
  | cached (ino refs : Nat) (waiting : Finset θ) (flusher : Option θ)

def Life.refs : Life θ → Nat
  | .absent => 0
  | .cached _ refs _ _ => refs

def Life.waiting : Life θ → Finset θ
  | .absent => ∅
  | .cached _ _ waiting _ => waiting

def Life.flusher : Life θ → Option θ
  | .absent => none
  | .cached _ _ _ flusher => flusher

/-- What the log shows of it. -/
def Life.seen : Life θ → Option (Nat × Nat)
  | .absent => none
  | .cached ino refs _ _ => some (ino, refs)

/-- An inode is created with a reference, and freed once, when none is
left. -/
def accept : Option (Nat × Nat) → Event → Option (Option (Nat × Nat))
  | none, .created ino => some (some (ino, 1))
  | some (ino, refs), .got => some (some (ino, refs + 1))
  | some (ino, refs + 1), .dropped => some (some (ino, refs))
  | some (_, 0), .freed => some none
  | _, _ => none

/-- A node with its counts. -/
def nodeWith (ino refs count nlinks : Nat) : Node where
  ino
  refCount := refs
  reclaimCount := count
  nlinks

/-- The node: every thread that is about to reclaim it counts in
`reclaim_count`, and its references do together. -/
def Life.Reads : Life θ → Option Node → Prop
  | .absent, node => node = none
  | .cached ino refs waiting _, node => ∃ nlinks, nlinks ≠ 0 ∧ node = some
      (nodeWith ino refs (waiting.card + if 0 < refs then 1 else 0) nlinks)

/-- A thread has the freeing of an inode without references before it. Once
it is at it, no other thread is. -/
def Life.Due : Life θ → Prop
  | .absent => True
  | .cached _ refs waiting flusher =>
      (refs = 0 → waiting.Nonempty ∨ flusher.isSome)
        ∧ (flusher.isSome → refs = 0 ∧ waiting = ∅)

/-- Where a thread is, of an address. -/
structure Placed (pc : Pc) (n : Nat) (t : θ) (life : Life θ) : Prop where
  reclaiming : pc = .reclaiming n ↔ t ∈ life.waiting
  flushing : pc = .flushing n ↔ life.flusher = some t

/-- An address whose life came so far. -/
structure NodeSound (w : World θ) (n : Nat) (life : Life θ) : Prop where
  lived : accepts accept none (w.log n) = some life.seen
  reads : life.Reads (w.nodes n)
  held : w.held n = life.refs
  due : life.Due
  placed : ∀ t, Placed (w.pc t) n t life

/-- The inode number at an address. -/
def World.inoAt (w : World θ) (n : Nat) : Option Nat :=
  (w.nodes n).map Node.ino

/-- The inodes in memory are on both lists, once, and there is at most one
for each number. -/
structure Indexed (w : World θ) : Prop where
  nodup : w.inodeList.Nodup
  listed : ∀ n, n ∈ w.inodeList ↔ (w.inoAt n).isSome
  hashNodup : ∀ b, (w.hashList b).Nodup
  hashed : ∀ b n, n ∈ w.hashList b ↔ ∃ ino, w.inoAt n = some ino ∧ sinHashfn ino = b
  unique : ∀ n m ino, w.inoAt n = some ino → w.inoAt m = some ino → n = m

/-- The thread that has `fs_sem`. -/
def Pc.Locks : Pc → Prop
  | .reading _ => True
  | .flushing _ => True
  | _ => False

structure Sound (w : World θ) : Prop where
  nodes : ∀ n, ∃ life, NodeSound w n life
  indexed : Indexed w
  locked : ∀ t, w.fsSem = some t ↔ (w.pc t).Locks
  missing : ∀ t ino, w.pc t = .reading ino → ∀ n, w.inoAt n ≠ some ino

/-- What a run comes to: all is sound, or `sfs_load_inode` has found that the
volume is not. -/
def Ending : Except Stop (World θ) → Prop
  | .ok w => Sound w
  | .error stop => stop = .notInuse ∨ stop = .noLinks

end Ucore.Sfs.Cache
