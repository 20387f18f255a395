/-
kern/fs/fs.c, the current directory of kern/fs/vfs/vfspath.c, and `copy_files`
and `put_files` of kern/process/proc.c: the `files_struct`s of processes.

A process is known by its `files_struct`, which those made with `CLONE_FS`
share. What a call of it works on is loaded from there and stored back.
-/
import Ucore.Vfs.File
import Mathlib.Algebra.BigOperators.Group.Finset.Basic
import Mathlib.Algebra.Group.Nat.Defs

namespace Ucore.Vfs

open Sfs

-- ============================================= the current directory

/-- `vop_gettype`, as `S_ISDIR` of the type it stores; `sfs_gettype` panics on
other types. -/
def vopGettype (node : Inode) : VfsM (Except Err Bool) := do
  inodeCheck node
  match node with
  | .sfs ino =>
      let sin ← onSfs (getSin ino)
      Call.assert (sin.din.type = sfsTypeDir ∨ sin.din.type = sfsTypeFile
        ∨ sin.din.type = sfsTypeLink)
      return .ok (sin.din.type = sfsTypeDir)
  | .dev _ => return .ok false

/-- The end of `vfs_set_curdir`. -/
def setCwd (dir oldDir : Option Inode) : VfsM (Except Err Unit) := do
  Call.modify fun s => { s with pwd := dir }
  match oldDir with
  | none => return .ok ()
  | some node =>
      vopRefDec node
      return .ok ()

/-- `vfs_set_curdir`. -/
def vfsSetCurdir (dir : Option Inode) : VfsM (Except Err Unit) := do
  let s ← Call.get
  if s.pwd ≠ dir then
    match dir with
    | none => setCwd none s.pwd
    | some node =>
        match ← vopGettype node with
        | .error e => return .error e
        | .ok isDir =>
            if isDir = false then return .error .notDir
            else
              vopRefInc node
              setCwd (some node) s.pwd
  else return .ok ()

/-- `vfs_chdir`. -/
def vfsChdir (path : List UInt8) : VfsM (Except Err Unit) := do
  match ← vfsLookup path with
  | (_, .error e) => return .error e
  | (_, .ok node) =>
      let ret ← vfsSetCurdir (some node)
      vopRefDec node
      return ret

-- ============================================================= state

/-- `struct files_struct`. -/
structure FilesStruct where
  pwd : Option Inode
  fdArray : Nat → File
  filesCount : Int

/-- What processes share, with the directory and the files of the one that ran
last; the `files_struct`s, and which of them are allocated. `held` counts the
references that were handed out by lookups, and to the list of devices, and
not given back; no function reads it. -/
structure Procs where
  files : Files
  structs : Nat → FilesStruct
  live : Finset Nat
  held : Inode → Int

/-- What runs on them. -/
abbrev ProcsM := Call Procs

/-- What a process works on. -/
def Procs.load (s : Procs) (p : Nat) : Files :=
  { s.files with
    vfs := { s.files.vfs with pwd := (s.structs p).pwd }
    fdArray := (s.structs p).fdArray }

def Procs.store (s : Procs) (p : Nat) (files : Files) : Procs :=
  { s with
    files := files
    structs := Function.update s.structs p { s.structs p with
      pwd := files.vfs.pwd, fdArray := files.fdArray } }

/-- A call on the files of a process. -/
def onFiles {α : Type} (p : Nat) (m : FileM α) : ProcsM α := fun s =>
  (m (s.load p)).map fun r => (r.1, s.store p r.2)

/-- The `files_struct` of a process. -/
def getStruct (p : Nat) : ProcsM FilesStruct := do
  let s ← Call.get
  Call.assert (p ∈ s.live)
  return s.structs p

def setStruct (p : Nat) (filesp : FilesStruct) : ProcsM Unit :=
  Call.modify fun s => { s with structs := Function.update s.structs p filesp }

/-- A call in a process, whose `filesp` is not NULL. -/
def inProc {α : Type} (p : Nat) (m : FileM α) : ProcsM α := do
  let _ ← getStruct p
  onFiles p m

/-- A call that takes the table from `get_fd_array`. -/
def onFdArray {α : Type} (p : Nat) (m : FileM α) : ProcsM α := do
  let filesp ← getStruct p
  Call.assert (0 < filesp.filesCount)
  onFiles p m

-- ============================================================== fs.c

/-- `fd_array_init`. -/
def fdArrayInit (fdArray : Nat → File) (k : Nat) : File :=
  { fdArray k with openCount := 0, status := .none, fd := k }

/-- `files_create`, with what `kmalloc` returns. -/
def filesCreate : Option Nat → ProcsM (Option Nat)
  | none => return none
  | some q => do
      Call.modify fun s => { s with
        structs := Function.update s.structs q
          { pwd := none, filesCount := 0
            fdArray := fdArrayInit (s.structs q).fdArray }
        live := insert q s.live }
      return some q

/-- The loop of `files_destroy` over `n` entries from `k` on. -/
def filesDestroyLoop : (n k : Nat) → FileM Unit
  | 0, _ => return ()
  | n + 1, k => do
      let file ← getFile k
      if file.status = .opened then fdArrayClose k
      let file ← getFile k
      Call.assert (file.status = .none)
      filesDestroyLoop n (k + 1)

/-- `files_destroy`. -/
def filesDestroy (p : Nat) : ProcsM Unit := do
  let filesp ← getStruct p
  Call.assert (filesp.filesCount = 0)
  match filesp.pwd with
  | none => pure ()
  | some node => onFiles p (onVfs (vopRefDec node))
  onFiles p (filesDestroyLoop filesStructNentry 0)
  Call.modify fun s => { s with live := s.live.erase p }

/-- `fd_array_dup` of an entry of another table. -/
def fdArrayDupOf (to' : Nat) (source : File) : FileM Unit := do
  let file ← getFile to'
  Call.assert (file.status = .init ∧ source.status = .opened)
  let node ← Call.ofOption source.node
  onVfs (vopRefInc node)
  onVfs (vopOpenInc node)
  setFile to' { file with
    pos := source.pos, readable := source.readable
    writable := source.writable, node := some node }
  fdArrayOpen to'

/-- The loop of `dup_files` over `n` entries from `k` on, from the table
`source`. -/
def dupFilesLoop (source : Nat → File) : (n k : Nat) → FileM Unit
  | 0, _ => return ()
  | n + 1, k => do
      if (source k).status = .opened then
        let file ← getFile k
        setFile k { file with status := .init }
        fdArrayDupOf k (source k)
      dupFilesLoop source n (k + 1)

/-- `dup_files`. -/
def dupFiles (to' from' : Nat) : ProcsM (Except Err Unit) := do
  let filesp ← getStruct to'
  let source ← getStruct from'
  Call.assert (filesp.filesCount = 0 ∧ 0 < source.filesCount)
  setStruct to' { filesp with pwd := source.pwd }
  match source.pwd with
  | none => pure ()
  | some node => onFiles to' (onVfs (vopRefInc node))
  onFiles to' (dupFilesLoop source.fdArray filesStructNentry 0)
  return .ok ()

-- ============================================================ proc.c

/-- `files_count_inc` and `files_count_dec`: the count they return. -/
def filesCountAdd (p : Nat) (n : Int) : ProcsM Int := do
  let filesp ← getStruct p
  setStruct p { filesp with filesCount := filesp.filesCount + n }
  return filesp.filesCount + n

/-- `copy_files` in a process, with what `kmalloc` returns: the `files_struct`
of the new one. -/
def copyFiles (cloneFs : Bool) (p : Nat) (q : Option Nat) :
    ProcsM (Except Err Nat) := do
  let _ ← getStruct p
  if cloneFs = true then
    let _ ← filesCountAdd p 1
    return .ok p
  else
    match ← filesCreate q with
    | none => return .error .noMem
    | some filesp =>
        match ← dupFiles filesp p with
        | .error e =>
            filesDestroy filesp
            return .error e
        | .ok _ =>
            let _ ← filesCountAdd filesp 1
            return .ok filesp

/-- `put_files` of a process. -/
def putFiles (p : Nat) : ProcsM Unit := do
  let count ← filesCountAdd p (-1)
  if count = 0 then filesDestroy p

-- ============================================================== runs

/-- Calls of processes, and what else takes references and gives them back. -/
inductive ProcCall where
  | fileOpen (p : Nat) (path : List UInt8) (flags : BitVec 32)
  | fileClose (p : Nat) (fd : Int)
  | fileDup (p : Nat) (fd1 fd2 : Int)
  | chdir (p : Nat) (path : List UInt8)
  | copyFiles (cloneFs : Bool) (p : Nat) (q : Option Nat)
  | putFiles (p : Nat)
  | lookup (p : Nat) (path : List UInt8)
  | refDec (node : Inode)

/-- A reference that a lookup hands out is held. -/
def hold : Except Err Inode → Procs → Procs
  | .error _, s => s
  | .ok node, s => { s with
      held := Function.update s.held node (s.held node + 1) }

/-- A held reference that is given back. -/
def release (node : Inode) (s : Procs) : Procs :=
  { s with held := Function.update s.held node (s.held node - 1) }

/-- The state a call that returns leaves, successful or not. -/
def ProcCall.exec (s : Procs) : ProcCall → Option Procs
  | .fileOpen p path flags =>
      (onFdArray p (Vfs.fileOpen path flags) s).map Prod.snd
  | .fileClose p fd => (onFdArray p (Vfs.fileClose fd) s).map Prod.snd
  | .fileDup p fd1 fd2 => (onFdArray p (Vfs.fileDup fd1 fd2) s).map Prod.snd
  | .chdir p path => (inProc p (onVfs (vfsChdir path)) s).map Prod.snd
  | .copyFiles cloneFs p q => (Vfs.copyFiles cloneFs p q s).map Prod.snd
  | .putFiles p => (Vfs.putFiles p s).map Prod.snd
  | .lookup p path =>
      (inProc p (onVfs (vfsLookup path)) s).map fun r => hold r.1.2 r.2
  | .refDec node =>
      (onVfs (vopRefDec node) s.files).map fun r =>
        release node { s with files := r.2 }

/-- What `kmalloc` and the holders of references see to. -/
def ProcCall.Legal (s : Procs) : ProcCall → Prop
  | .copyFiles _ _ (some q) => q ∉ s.live
  | .refDec node => 0 < s.held node
  | _ => True

instance (s : Procs) : (call : ProcCall) → Decidable (call.Legal s)
  | .copyFiles _ _ (some q) => inferInstanceAs (Decidable (q ∉ s.live))
  | .refDec node => inferInstanceAs (Decidable (0 < s.held node))
  | .copyFiles _ _ none => .isTrue trivial
  | .fileOpen _ _ _ => .isTrue trivial
  | .fileClose _ _ => .isTrue trivial
  | .fileDup _ _ _ => .isTrue trivial
  | .chdir _ _ => .isTrue trivial
  | .putFiles _ => .isTrue trivial
  | .lookup _ _ => .isTrue trivial

/-- A call that returns. -/
inductive ProcStep : Procs → ProcCall → Procs → Prop
  | call {s s' : Procs} {call : ProcCall} :
      call.Legal s → call.exec s = some s' → ProcStep s call s'

-- ========================================================== accounts

/-- The inode that an entry refers to. -/
def File.refers (file : File) : Option Inode :=
  if file.status = .opened ∨ file.status = .closed then file.node else none

/-- The entries of the tables that refer to an inode. -/
def entries (s : Procs) (node : Inode) : Nat :=
  ∑ p ∈ s.live, ((Finset.range filesStructNentry).filter fun k =>
    ((s.structs p).fdArray k).refers = some node).card

/-- The references to an inode. -/
def Vfs.refs (s : Vfs) : Inode → Int
  | .sfs ino => refCount s.sfs ino
  | .dev id => s.devRefs id

/-- The call opens an inode that there is with `O_CREAT` and `O_EXCL`. -/
def ProcCall.Leaks (s : Procs) : ProcCall → Prop
  | .fileOpen p path flags =>
      given flags oCreat ∧ given flags oExcl
        ∧ (accmode flags = oRdonly ∨ CanWrite flags)
        ∧ (given flags oTrunc → CanWrite flags)
        ∧ (∃ k < filesStructNentry, ((s.load p).fdArray k).status = .none)
        ∧ ∃ path' node v, vfsLookup path (s.load p).vfs = some ((path', .ok node), v)
  | _ => False

end Ucore.Vfs
