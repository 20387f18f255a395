/-
kern/fs/vfs/vfsfile.c: opening and closing an inode.

What a path denotes: where its lookup starts, and the name from there. There
are four forms, `name`, `/name`, `:name` and `device:name`, told apart by the
first colon or slash.
-/
import Ucore.Vfs.Lookup

namespace Ucore.Vfs

open Sfs

-- ============================================================= flags

/-- `O_ACCMODE` of the flags. -/
def accmode (flags : BitVec 32) : BitVec 32 := flags &&& 3
/-- `O_RDONLY`. -/
def oRdonly : BitVec 32 := 0
/-- `O_WRONLY`. -/
def oWronly : BitVec 32 := 1
/-- `O_RDWR`. -/
def oRdwr : BitVec 32 := 2
/-- `O_CREAT`. -/
def oCreat : BitVec 32 := 0x4
/-- `O_EXCL`. -/
def oExcl : BitVec 32 := 0x8
/-- `O_TRUNC`. -/
def oTrunc : BitVec 32 := 0x10
/-- `O_APPEND`. -/
def oAppend : BitVec 32 := 0x20

/-- A flag is given. -/
def given (flags flag : BitVec 32) : Prop := flags &&& flag ≠ 0

instance (flags flag : BitVec 32) : Decidable (given flags flag) :=
  inferInstanceAs (Decidable (flags &&& flag ≠ 0))

/-- The access mode is one that writes. -/
def CanWrite (flags : BitVec 32) : Prop :=
  accmode flags = oWronly ∨ accmode flags = oRdwr

instance (flags : BitVec 32) : Decidable (CanWrite flags) :=
  inferInstanceAs (Decidable (_ ∨ _))

-- ======================================================== operations

/-- `vop_create`: no inode has such an operation. -/
def vopCreate (_ : Inode) (_ : List UInt8) (_ : Bool) :
    VfsM (Except Err Inode) := Call.panic

/-- `sfs_opendir`. -/
def sfsOpendir (flags : BitVec 32) : Except Err Unit :=
  if accmode flags ≠ oRdonly then .error .isDir
  else if given flags oAppend then .error .isDir
  else .ok ()

/-- `dev_open`. -/
def devOpen (dOpen : BitVec 32 → Except Err Unit) (flags : BitVec 32) :
    Except Err Unit :=
  if given flags (oCreat ||| oTrunc ||| oExcl ||| oAppend) then .error .inval
  else dOpen flags

/-- `vop_open`: a file is opened with any flags. -/
def vopOpen (node : Inode) (flags : BitVec 32) : VfsM (Except Err Unit) := do
  inodeCheck node
  match node with
  | .sfs ino =>
      let sin ← onSfs (getSin ino)
      if sin.din.type = sfsTypeDir then return sfsOpendir flags
      else return .ok ()
  | .dev id =>
      let s ← Call.get
      return devOpen (s.dOpen id) flags

/-- `vop_open_inc`. -/
def vopOpenInc (node : Inode) : VfsM Unit :=
  Call.modify fun s => { s with
    opens := Function.update s.opens node (s.opens node + 1) }

/-- `vop_close`: for an inode of the volume `sfs_close`, which is
`vop_fsync`. -/
def vopClose (node : Inode) : VfsM Unit := do
  inodeCheck node
  match node with
  | .sfs ino => onSfs (sfsFsync ino)
  | .dev _ => return ()

/-- `vop_open_dec`. -/
def vopOpenDec (node : Inode) : VfsM Unit := do
  let s ← Call.get
  Call.assert (0 < s.opens node)
  let opens := s.opens node - 1
  Call.modify fun s => { s with opens := Function.update s.opens node opens }
  if opens = 0 then vopClose node

/-- `vop_truncate` of kern/fs/vfs/inode.h: devices have no such operation. -/
def vopTruncate (node : Inode) (len : Int) : VfsM (Except Err Unit) := do
  inodeCheck node
  match node with
  | .sfs ino => onSfs (Sfs.vopTruncate ino len)
  | .dev _ => Call.panic

-- =========================================================== opening

/-- The last part of `vfs_open`, with the inode to open. -/
def vfsOpenNode (flags : BitVec 32) (node : Inode) :
    VfsM (Except Err Inode) := do
  match ← vopOpen node flags with
  | .error e =>
      vopRefDec node
      return .error e
  | .ok _ =>
      vopOpenInc node
      if given flags oTrunc ∨ given flags oCreat then
        match ← vopTruncate node 0 with
        | .error e =>
            vopOpenDec node
            vopRefDec node
            return .error e
        | .ok _ => return .ok node
      else return .ok node

/-- `vfs_open` over an operation `create` for `vop_create`. An error of it is
not looked at, and leaves no inode to open. -/
def vfsOpenWith (create : Inode → List UInt8 → Bool → VfsM (Except Err Inode))
    (path : List UInt8) (flags : BitVec 32) : VfsM (Except Err Inode) := do
  if accmode flags ≠ oRdonly ∧ ¬ CanWrite flags then return .error .inval
  else if given flags oTrunc ∧ ¬ CanWrite flags then return .error .inval
  else
    let excl := decide (given flags oExcl)
    match ← vfsLookup path with
    | (path, .error e) =>
        if e = .noEnt ∧ given flags oCreat then
          match ← vfsLookupParent path with
          | (_, .error e) => return .error e
          | (_, .ok (dir, name)) =>
              match ← create dir name excl with
              | .error _ => Call.panic
              | .ok node => vfsOpenNode flags node
        else return .error e
    | (_, .ok node) =>
        if excl = true ∧ given flags oCreat then return .error .fileExists
        else vfsOpenNode flags node

/-- `vfs_open`. -/
def vfsOpen (path : List UInt8) (flags : BitVec 32) :
    VfsM (Except Err Inode) :=
  vfsOpenWith vopCreate path flags

/-- `vfs_close`. -/
def vfsClose (node : Inode) : VfsM Unit := do
  vopOpenDec node
  vopRefDec node

end Ucore.Vfs

namespace Ucore.Vfs

open Sfs

/-- Where a lookup starts. -/
inductive Start where
  | curdir
  | bootfs
  | curroot
  | device (name : List UInt8)

/-- Neither a colon nor a slash. -/
def plain (c : UInt8) : Bool := c ≠ colonChar ∧ c ≠ slash

/-- A name without the slashes before it. -/
def skip (path : List UInt8) : List UInt8 := path.dropWhile (· = slash)

/-- The start of a path and the name from there. -/
def parse (path : List UInt8) : Start × List UInt8 :=
  let head := path.takeWhile plain
  match path.dropWhile plain with
  | [] => (.curdir, path)
  | c :: rest =>
      if c = colonChar then
        (if head = [] then .curroot else .device head, skip rest)
      else if head = [] then (.bootfs, skip rest)
      else (.curdir, path)

/-- The inode of a device name. -/
def rootOf (s : Vfs) (devname : List UInt8) : Except Err Inode :=
  match s.vdevList.find? (fun vdev => vdev.devname = devname) with
  | none => .error .noDev
  | some vdev =>
      if vdev.fs = true then .ok (.sfs sfsBlknRoot)
      else if vdev.mountable = false then
        match vdev.devnode with
        | none => .error .naDev
        | some id => .ok (.dev id)
      else .error .naDev

/-- The inode that a lookup starts from. -/
def startNode (s : Vfs) : Start → Except Err Inode
  | .curdir => s.pwd.elim (.error .noEnt) .ok
  | .bootfs => s.bootfs.elim (.error .noEnt) .ok
  | .curroot => s.pwd.elim (.error .noEnt) fun _ => .ok (.sfs sfsBlknRoot)
  | .device name => rootOf s name

/-- The path denotes the name in the directory. -/
def Denotes (s : Vfs) (path : List UInt8) (dir : Inode) (name : List UInt8) :
    Prop :=
  startNode s (parse path).1 = .ok dir ∧ (parse path).2 = name

/-- The path names the inode of the volume: it is the start, or the one that
the start has under the name, as `sfs_lookup` takes it for one. -/
def Names (s : Vfs) (path : List UInt8) (i : Nat) : Prop :=
  ∃ dir, startNode s (parse path).1 = .ok (.sfs dir)
    ∧ resolve s.sfs dir ([(parse path).2].filter (· ≠ [])) = .ok i

/-- The flags create a file that is there already: `O_CREAT` without `O_EXCL`
and without `O_TRUNC`, with an access mode that there is. -/
def Recreates (flags : BitVec 32) : Prop :=
  given flags oCreat ∧ ¬ given flags oExcl ∧ ¬ given flags oTrunc
    ∧ (accmode flags = oRdonly ∨ CanWrite flags)

/-- What `vfs_open` does after `vop_create`. -/
def afterCreate (flags : BitVec 32) : Except Err Inode → VfsM (Except Err Inode)
  | .error _ => Call.panic
  | .ok node => vfsOpenNode flags node

/-- `vfs_open` calls `vop_create` with the directory and the name: whatever
that does, the call goes on with it. -/
def CreateCall (s : Vfs) (path : List UInt8) (flags : BitVec 32) (dir : Inode)
    (name : List UInt8) : Prop :=
  ∃ s', ∀ create : Inode → List UInt8 → Bool → VfsM (Except Err Inode),
    vfsOpenWith create path flags s
      = (create dir name (decide (given flags oExcl))
        >>= afterCreate flags) s'

/-- The file systems and directories that paths start from. -/
structure SameStart (s s' : Vfs) : Prop where
  pwd : s'.pwd = s.pwd
  bootfs : s'.bootfs = s.bootfs
  vdevList : s'.vdevList = s.vdevList

end Ucore.Vfs
