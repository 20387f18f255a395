/-
kern/fs/vfs/vfslookup.c, and what it calls of vfs.c, vfsdev.c, vfspath.c,
inode.c and of kern/fs/devs/dev.c.

The SFS volume is the only file system, as `sfs_init` mounts no other. A path
is the bytes in its buffer before the NUL that ends them; `get_device` stores
another NUL among them, so what a pointer into the buffer is the string of
are the bytes up to the next one. The locks are not modelled: calls run one
at a time.
-/
import Ucore.Sfs.Dir

namespace Ucore.Vfs

open Sfs

-- ============================================================= state

/-- A pointer to a `struct inode`: of the volume, or of a device. -/
inductive Inode where
  | sfs (ino : Nat)
  | dev (id : Nat)
deriving DecidableEq

/-- `in_fs` is not NULL. -/
def Inode.inFs : Inode → Bool
  | .sfs _ => true
  | .dev _ => false

/-- `vfs_dev_t`; `fs` is whether the volume is mounted on the device. -/
structure VfsDev where
  devname : List UInt8
  devnode : Option Nat
  fs : Bool
  mountable : Bool

/-- What the calls read and write: the volume, `current->filesp->pwd`,
`bootfs_node`, `vdev_list`, `d_open` and the reference counts of the devices,
the open counts. -/
structure Vfs where
  sfs : SfsFs
  pwd : Option Inode
  bootfs : Option Inode
  vdevList : List VfsDev
  dOpen : Nat → BitVec 32 → Except Err Unit
  devRefs : Nat → Int
  opens : Inode → Int

/-- What runs on the file systems. -/
abbrev VfsM := Call Vfs

/-- A call of the file system. -/
def onSfs {α : Type} (m : SfsM α) : VfsM α := fun s =>
  (m s.sfs).map fun r => (r.1, { s with sfs := r.2 })

-- ============================================================ inodes

/-- `MAX_INODE_COUNT`. -/
def maxInodeCount : Int := 0x10000

/-- `inode_ref_count`. -/
def inodeRefCount : Inode → VfsM Int
  | .sfs ino => do
      let node ← onSfs (getSin ino)
      return node.refCount
  | .dev id => do
      let s ← Call.get
      return s.devRefs id

/-- `inode_check`. -/
def inodeCheck (node : Inode) : VfsM Unit := do
  let refs ← inodeRefCount node
  let s ← Call.get
  Call.assert (s.opens node ≤ refs ∧ 0 ≤ s.opens node)
  Call.assert (refs < maxInodeCount ∧ s.opens node < maxInodeCount)

/-- `vop_ref_inc`. -/
def vopRefInc : Inode → VfsM Unit
  | .sfs ino => do
      let _ ← onSfs (inodeRefInc ino)
  | .dev id => Call.modify fun s => { s with
      devRefs := Function.update s.devRefs id (s.devRefs id + 1) }

/-- `vop_ref_dec`: devices have no `vop_reclaim`. -/
def vopRefDec : Inode → VfsM Unit
  | .sfs ino => do
      let node ← onSfs (getSin ino)
      let s ← Call.get
      Call.assert (node.refCount = 1 → s.opens (.sfs ino) = 0)
      onSfs (inodeRefDec ino)
  | .dev id => do
      let s ← Call.get
      Call.assert (1 < s.devRefs id)
      Call.modify fun s => { s with
        devRefs := Function.update s.devRefs id (s.devRefs id - 1) }

/-- `dev_lookup`. -/
def devLookup (id : Nat) (path : List UInt8) : VfsM (Except Err Inode) := do
  if path ≠ [] then return .error .noEnt
  else
    vopRefInc (.dev id)
    return .ok (.dev id)

/-- `vop_lookup`: files have no such operation. -/
def vopLookup (node : Inode) (path : List UInt8) :
    VfsM (Except Err Inode) := do
  inodeCheck node
  match node with
  | .sfs ino =>
      let sin ← onSfs (getSin ino)
      Call.assert (sin.din.type = sfsTypeDir)
      let ret ← onSfs (sfsLookup ino path)
      return ret.map .sfs
  | .dev id => devLookup id path

-- ====================================================== start inodes

/-- `fsop_get_root`. -/
def fsopGetRoot : VfsM Inode := do
  onSfs (sfsLoadInode sfsBlknRoot)
  return .sfs sfsBlknRoot

/-- A reference to an inode that there may be none of. -/
def getNode : Option Inode → VfsM (Except Err Inode)
  | none => return .error .noEnt
  | some node => do
      vopRefInc node
      return .ok node

/-- `vfs_get_curdir`. -/
def vfsGetCurdir : VfsM (Except Err Inode) := do
  let s ← Call.get
  getNode s.pwd

/-- `vfs_get_bootfs`. -/
def vfsGetBootfs : VfsM (Except Err Inode) := do
  let s ← Call.get
  getNode s.bootfs

/-- `vfs_get_root`. -/
def vfsGetRoot (devname : List UInt8) : VfsM (Except Err Inode) := do
  let s ← Call.get
  match s.vdevList.find? (fun vdev => vdev.devname = devname) with
  | none => return .error .noDev
  | some vdev =>
      if vdev.fs = true then
        let root ← fsopGetRoot
        return .ok root
      else if vdev.mountable = false then
        let id ← Call.ofOption vdev.devnode
        vopRefInc (.dev id)
        return .ok (.dev id)
      else return .error .naDev

-- ============================================================ lookup

/-- `':'`. -/
def colonChar : UInt8 := 0x3A

/-- The loop of `get_device` from index `i` on: `slash` and `colon`. -/
def scanDevice : (path : List UInt8) → (i : Nat) → Int × Int
  | [], _ => (-1, -1)
  | c :: cs, i =>
      if c = 0 then (-1, -1)
      else if c = colonChar then (-1, i)
      else if c = slash then (i, -1)
      else scanDevice cs (i + 1)

/-- `while (path[++ i] == '/')`. -/
def skipSlashes (path : List UInt8) (i : Nat) : Nat :=
  i + 1 + ((path.drop (i + 1)).takeWhile (· = slash)).length

/-- `get_device`: the buffer it leaves, and where the rest of the path starts
in it with the inode that it is relative to. -/
def getDevice (path : List UInt8) :
    VfsM (List UInt8 × Except Err (Nat × Inode)) := do
  let (slash', colon) := scanDevice path 0
  if colon < 0 ∧ slash' ≠ 0 then
    let ret ← vfsGetCurdir
    return (path, ret.map fun node => (0, node))
  else if 0 < colon then
    let path := path.set colon.toNat 0
    let colon := skipSlashes path colon.toNat
    let ret ← vfsGetRoot (cString path)
    return (path, ret.map fun node => (colon, node))
  else if path.head? = some slash then
    let ret ← vfsGetBootfs
    return (path, ret.map fun node => (skipSlashes path 0, node))
  else
    Call.assert (path.head? = some colonChar)
    match ← vfsGetCurdir with
    | .error e => return (path, .error e)
    | .ok node =>
        Call.assert (node.inFs = true)
        let root ← fsopGetRoot
        vopRefDec node
        return (path, .ok (skipSlashes path 0, root))

/-- `vfs_lookup`: the buffer it leaves, and what it returns. -/
def vfsLookup (path : List UInt8) :
    VfsM (List UInt8 × Except Err Inode) := do
  match ← getDevice path with
  | (path, .error e) => return (path, .error e)
  | (path, .ok (start, node)) =>
      let name := cString (path.drop start)
      if name ≠ [] then
        let ret ← vopLookup node name
        vopRefDec node
        return (path, ret)
      else return (path, .ok node)

/-- `vfs_lookup_parent`. -/
def vfsLookupParent (path : List UInt8) :
    VfsM (List UInt8 × Except Err (Inode × List UInt8)) := do
  match ← getDevice path with
  | (path, .error e) => return (path, .error e)
  | (path, .ok (start, node)) =>
      return (path, .ok (node, cString (path.drop start)))

end Ucore.Vfs
