/-
kern/fs/file.c: the `struct file`s of a `files_struct` that threads share.

A thread runs until it waits inside an operation of an inode: in `vfs_open`
or `vop_fstat` of `file_open`, between `fd_array_acquire` and
`fd_array_release`, and in the `vfs_close` of `fd_array_free`. There others
run. What the operations return is chosen with the action. A failed assertion
is `none`. `log` says of each entry what became of it, the oldest first; no
function reads it.
-/
import Ucore.Vfs.File
import Ucore.Lib.Trace

namespace Ucore.Vfs.Shared

open Sfs

variable {θ : Type}

-- ============================================================= state

/-- Where a thread is: outside of a call, in the `file_open` that took an
entry, in an operation on an entry, or in `vfs_close` for it. -/
inductive Pc where
  | idle
  | opening (k : Nat)
  | holding (k : Nat)
  | closing (k : Nat)
deriving DecidableEq

/-- What becomes of an entry: a thread takes it to open it, and drops it or
gives it an inode; a thread closes the inode and leaves the entry. -/
inductive Event (θ : Type) where
  | taken (t : θ)
  | dropped
  | opened (node : Inode)
  | acquired (t : θ)
  | released (t : θ)
  | requested
  | closed (t : θ) (node : Inode)
  | left

structure World (θ : Type) where
  fdArray : Nat → File
  pc : θ → Pc
  log : Nat → List (Event θ)

def World.setFile (w : World θ) (k : Nat) (file : File) : World θ :=
  { w with fdArray := Function.update w.fdArray k file }

def World.goto [DecidableEq θ] (w : World θ) (t : θ) (pc : Pc) : World θ :=
  { w with pc := Function.update w.pc t pc }

def World.note (w : World θ) (k : Nat) (e : Event θ) : World θ :=
  { w with log := Function.update w.log k (w.log k ++ [e]) }

-- ======================================================= the entries

/-- `fd_array_alloc`: the index of the entry. -/
def pick (w : World θ) (fd : Int) : Except Err Nat :=
  if fd = noFd then
    match (List.range filesStructNentry).find?
        fun k => (w.fdArray k).status = .none with
    | some k => .ok k
    | none => .error .maxOpen
  else if testfd fd then
    if (w.fdArray fd.toNat).status = .none then .ok fd.toNat else .error .busy
  else .error .inval

/-- The end of `fd_array_alloc`. -/
def fdArrayFound (w : World θ) (t : θ) (k : Nat) : Option (World θ) :=
  if (w.fdArray k).openCount = 0 then
    some ((w.setFile k { w.fdArray k with status := .init, node := none }).note k
      (.taken t))
  else none

/-- `fd2file`. -/
def fd2file (w : World θ) (fd : Int) : Except Err Nat :=
  if testfd fd ∧ (w.fdArray fd.toNat).status = .opened
      ∧ (w.fdArray fd.toNat).fd = fd then .ok fd.toNat
  else .error .inval

/-- `fd_array_open`. -/
def fdArrayOpen (w : World θ) (k : Nat) : Option (World θ) :=
  let file := w.fdArray k
  match file.node with
  | none => none
  | some node =>
      if file.status = .init then
        some ((w.setFile k
          { file with status := .opened, openCount := file.openCount + 1 }).note
          k (.opened node))
      else none

variable [DecidableEq θ]

/-- `fd_array_free` by a thread, up to `vfs_close` if it is called. -/
def fdArrayFree (w : World θ) (t : θ) (k : Nat) : Option (World θ) :=
  let file := w.fdArray k
  if (file.status = .init ∨ file.status = .closed) ∧ file.openCount = 0 then
    if file.status = .closed then
      match file.node with
      | none => none
      | some node => some ((w.goto t (.closing k)).note k (.closed t node))
    else
      some (((w.setFile k { file with status := .none }).goto t .idle).note k
        .dropped)
  else none

/-- `fd_array_acquire`. -/
def fdArrayAcquire (w : World θ) (t : θ) (k : Nat) : Option (World θ) :=
  let file := w.fdArray k
  if file.status = .opened then
    some (((w.setFile k { file with openCount := file.openCount + 1 }).goto t
      (.holding k)).note k (.acquired t))
  else none

/-- `fd_array_release`. -/
def fdArrayRelease (w : World θ) (t : θ) (k : Nat) : Option (World θ) :=
  let file := w.fdArray k
  if (file.status = .opened ∨ file.status = .closed) ∧ 0 < file.openCount then
    let w := ((w.setFile k { file with openCount := file.openCount - 1 }).goto t
      .idle).note k (.released t)
    if file.openCount - 1 = 0 then fdArrayFree w t k else some w
  else none

/-- `fd_array_close`. -/
def fdArrayClose (w : World θ) (t : θ) (k : Nat) : Option (World θ) :=
  let file := w.fdArray k
  if file.status = .opened ∧ 0 < file.openCount then
    let w := (w.setFile k
      { file with status := .closed, openCount := file.openCount - 1 }).note k
      .requested
    if file.openCount - 1 = 0 then fdArrayFree w t k else some w
  else none

/-- `fd_array_dup`. -/
def fdArrayDup (w : World θ) (to' from' : Nat) : Option (World θ) :=
  let file := w.fdArray to'
  let source := w.fdArray from'
  if file.status = .init ∧ source.status = .opened then
    match source.node with
    | none => none
    | some node =>
        fdArrayOpen (w.setFile to' { file with
          pos := source.pos, readable := source.readable
          writable := source.writable, node := some node }) to'
  else none

-- ======================================================= the threads

/-- What a thread does next. `openFail` and `openDone` end the waiting of
`file_open`, with an error or with an inode and what the entry says of it;
`acquire` begins an operation with a descriptor, unless the entry does not
permit it, and `release` ends it, with the position it leaves, which only
`file_seek` stores in an entry that was closed meanwhile; `closed` ends the
waiting of `fd_array_free`. -/
inductive Action where
  | openStart
  | openFail
  | openDone (node : Inode) (pos : Int) (readable writable : Bool)
  | acquire (fd : Int) (read write : Bool)
  | release (pos : Int) (seek : Bool)
  | close (fd : Int)
  | closed
  | dup (fd1 fd2 : Int)

/-- An action of a thread; one it is not at changes nothing. -/
def step (w : World θ) (t : θ) : Action → Option (World θ)
  | .openStart =>
      if w.pc t = .idle then
        match pick w noFd with
        | .error _ => some w
        | .ok k => (fdArrayFound w t k).map (World.goto · t (.opening k))
      else some w
  | .openFail =>
      match w.pc t with
      | .opening k => fdArrayFree w t k
      | _ => some w
  | .openDone node pos readable writable =>
      match w.pc t with
      | .opening k =>
          let file := { w.fdArray k with pos, node := some node, readable, writable }
          (fdArrayOpen (w.setFile k file) k).map (World.goto · t .idle)
      | _ => some w
  | .acquire fd read write =>
      if w.pc t = .idle then
        match fd2file w fd with
        | .error _ => some w
        | .ok k =>
            if (read = true ∧ (w.fdArray k).readable = false)
                ∨ (write = true ∧ (w.fdArray k).writable = false) then some w
            else fdArrayAcquire w t k
      else some w
  | .release pos seek =>
      match w.pc t with
      | .holding k =>
          let file := w.fdArray k
          let file := { file with
            pos := if seek = true ∨ file.status = .opened then pos else file.pos }
          fdArrayRelease (w.setFile k file) t k
      | _ => some w
  | .close fd =>
      if w.pc t = .idle then
        match fd2file w fd with
        | .error _ => some w
        | .ok k => fdArrayClose w t k
      else some w
  | .closed =>
      match w.pc t with
      | .closing k =>
          some (((w.setFile k { w.fdArray k with status := .none }).goto t
            .idle).note k .left)
      | _ => some w
  | .dup fd1 fd2 =>
      if w.pc t = .idle then
        match fd2file w fd1 with
        | .error _ => some w
        | .ok k1 =>
            match pick w fd2 with
            | .error _ => some w
            | .ok k2 => (fdArrayFound w t k2).bind fun w => fdArrayDup w k2 k1
      else some w

/-- Actions of threads, in any order. -/
def execAll : World θ → List (θ × Action) → Option (World θ)
  | w, [] => some w
  | w, (t, a) :: acts => (step w t a).bind fun w => execAll w acts

/-- `fd_array_init`, with no thread in a call. -/
def start : World θ where
  fdArray k :=
    { status := .none, readable := false, writable := false, fd := k, pos := 0
      node := none, openCount := 0 }
  pc _ := .idle
  log _ := []

-- ==================================================== the life cycle

/-- What an entry is for: nothing, a thread that opens it, an inode, which
threads operate on and whose closing may have been requested, or a thread in
`vfs_close`. -/
inductive Life (θ : Type) where
  | free
  | opening (t : θ)
  | live (node : Inode) (requested : Bool) (holders : Finset θ)
  | closing (t : θ)

/-- The life of an entry. An inode is closed once, after that was requested
and after the last thread released the entry. -/
def Life.accept : Life θ → Event θ → Option (Life θ)
  | .free, .taken t => some (.opening t)
  | .opening _, .dropped => some .free
  | .opening _, .opened node => some (.live node false ∅)
  | .live node false holders, .acquired t =>
      if t ∈ holders then none else some (.live node false (insert t holders))
  | .live node requested holders, .released t =>
      if t ∈ holders then some (.live node requested (holders.erase t)) else none
  | .live node false holders, .requested => some (.live node true holders)
  | .live node true holders, .closed t node' =>
      if node' = node ∧ holders = ∅ then some (.closing t) else none
  | .closing _, .left => some .free
  | _, _ => none

/-- The status of an entry. -/
def Life.status : Life θ → Status
  | .free => .none
  | .opening _ => .init
  | .live _ false _ => .opened
  | .live _ true _ => .closed
  | .closing _ => .closed

/-- The threads that operate on it. -/
def Life.holders : Life θ → Finset θ
  | .live _ _ holders => holders
  | _ => ∅

/-- How many hold it: these, and the descriptor while it is open. -/
def Life.count : Life θ → Int
  | .live _ requested holders => holders.card + if requested = true then 0 else 1
  | _ => 0

/-- Its inode. -/
def Life.node : Life θ → Option Inode
  | .live node _ _ => some node
  | _ => none

/-- Where a thread is, of an entry. -/
structure Placed (pc : Pc) (k : Nat) (t : θ) (life : Life θ) : Prop where
  opening : pc = .opening k ↔ life = .opening t
  holding : pc = .holding k ↔ t ∈ life.holders
  closing : pc = .closing k ↔ life = .closing t

/-- An entry whose life came so far: it is `FD_NONE` exactly if it is free,
and its count is that of its holders. -/
structure EntrySound (w : World θ) (k : Nat) (life : Life θ) : Prop where
  lived : accepts Life.accept .free (w.log k) = some life
  status : (w.fdArray k).status = life.status
  count : (w.fdArray k).openCount = life.count
  node : ∀ node, life.node = some node → (w.fdArray k).node = some node
  placed : ∀ t, Placed (w.pc t) k t life

/-- Every entry is. -/
def Sound (w : World θ) : Prop := ∀ k, ∃ life, EntrySound w k life

end Ucore.Vfs.Shared
