/-
kern/fs/sfs/sfs_inode.c: the entries of a directory and `sfs_lookup`.

Each entry has a block of its own. `sfs_lookup` looks its whole path up as
one name; what a path of several names refers to is `resolve`, in a
directory tree that is `Tree`.
-/
import Ucore.Sfs.File
import Ucore.Sfs.Size

namespace Ucore.Sfs

-- =========================================================== entries

/-- `SFS_MAX_FNAME_LEN`. -/
def sfsMaxFnameLen : Nat := 255

/-- `'/'`. -/
def slash : UInt8 := 0x2F

/-- The bytes of a string up to its NUL. -/
def cString (bytes : List UInt8) : List UInt8 := bytes.takeWhile (· ≠ 0)

/-- `struct sfs_disk_entry`, with its name as a string. -/
structure DiskEntry where
  ino : Nat
  name : List UInt8

/-- An entry in its bytes, the last byte of the name set to NUL. -/
def DiskEntry.ofBytes (buf : Nat → UInt8) : DiskEntry where
  ino := getWord buf 0 4
  name := cString ((List.range sfsMaxFnameLen).map fun k => buf (4 + k))

/-- `sfs_dirent_read_nolock` with the entry it reads. -/
def sfsDirentReadEntry (sin slot : Nat) : SfsM (Except Err DiskEntry) := do
  let node ← getSin sin
  Call.assert (node.din.type = sfsTypeDir ∧ slot < node.din.blocks)
  match ← sfsBmapLoadNolock sin slot with
  | .error e => return .error e
  | .ok ino =>
      let inuse ← sfsBlockInuse ino
      Call.assert (inuse = true)
      let buf ← sfsRbuf sizeofDiskEntry ino 0
      return .ok (.ofBytes buf)

/-- The loop of `sfs_dirent_search_nolock` over `n` slots from `i` on: the
inode and the slot of the name. -/
def direntSearchLoop (sin : Nat) (name : List UInt8) :
    (n i : Nat) → SfsM (Except Err (Nat × Nat))
  | 0, _ => return .error .noEnt
  | n + 1, i => do
      match ← sfsDirentReadEntry sin i with
      | .error e => return .error e
      | .ok entry =>
          if entry.ino ≠ 0 ∧ name = entry.name then return .ok (entry.ino, i)
          else direntSearchLoop sin name n (i + 1)

/-- `sfs_dirent_search_nolock`, without the empty slot. -/
def sfsDirentSearchNolock (sin : Nat) (name : List UInt8) :
    SfsM (Except Err (Nat × Nat)) := do
  Call.assert (name.length ≤ sfsMaxFnameLen)
  let node ← getSin sin
  direntSearchLoop sin name node.din.blocks 0

/-- `sfs_lookup_once`. -/
def sfsLookupOnce (sin : Nat) (name : List UInt8) : SfsM (Except Err Nat) := do
  match ← sfsDirentSearchNolock sin name with
  | .error e => return .error e
  | .ok (ino, _) =>
      sfsLoadInode ino
      return .ok ino

/-- `sfs_lookup`. -/
def sfsLookup (node : Nat) (path : List UInt8) : SfsM (Except Err Nat) := do
  Call.assert (path ≠ [] ∧ path.head? ≠ some slash)
  let _ ← inodeRefInc node
  let sin ← getSin node
  if sin.din.type ≠ sfsTypeDir then
    inodeRefDec node
    return .error .notDir
  else
    let ret ← sfsLookupOnce node path
    inodeRefDec node
    return ret

-- ============================================================= trees

/-- The entry in a slot of a directory. -/
def entryOf (fs : SfsFs) (i slot : Nat) : DiskEntry :=
  .ofBytes (fs.disk (blockAt fs i slot))

/-- A slot of a directory holds a name. -/
def holds (fs : SfsFs) (i : Nat) (name : List UInt8) (slot : Nat) : Bool :=
  (entryOf fs i slot).ino ≠ 0 ∧ name = (entryOf fs i slot).name

/-- The inode that a directory has under a name. -/
def lookupName (fs : SfsFs) (i : Nat) (name : List UInt8) : Option Nat :=
  ((List.range (inodeOf fs i).blocks).find? (holds fs i name)).map
    fun slot => (entryOf fs i slot).ino

/-- The names of a path. -/
def components (path : List UInt8) : List (List UInt8) :=
  (path.splitOn slash).filter (· ≠ [])

/-- The inode that names lead to, one directory after the other. -/
def resolve (fs : SfsFs) : Nat → List (List UInt8) → Except Err Nat
  | i, [] => .ok i
  | i, name :: names =>
      if (inodeOf fs i).type ≠ sfsTypeDir then .error .notDir
      else
        match lookupName fs i name with
        | none => .error .noEnt
        | some j => resolve fs j names

/-- A directory tree: each slot of a directory has a block, its entry names
an inode of the volume by a name without slashes, and each inode is a linked
file or directory. -/
structure Tree (v : Volume) : Prop where
  slots : ∀ i ∈ v.files, (inodeOf v.fs i).type = sfsTypeDir →
    ∀ slot < (inodeOf v.fs i).blocks, blockAt v.fs i slot ≠ 0
  entries : ∀ i ∈ v.files, (inodeOf v.fs i).type = sfsTypeDir →
    ∀ slot < (inodeOf v.fs i).blocks, (entryOf v.fs i slot).ino ≠ 0 →
      (entryOf v.fs i slot).ino ∈ v.files
        ∧ (entryOf v.fs i slot).name ≠ []
        ∧ slash ∉ (entryOf v.fs i slot).name
  linked : ∀ i ∈ v.files, (inodeOf v.fs i).nlinks ≠ 0
  type : ∀ i ∈ v.files, (inodeOf v.fs i).type = sfsTypeDir
    ∨ (inodeOf v.fs i).type = sfsTypeFile

/-- The references to an inode in memory. -/
def refCount (fs : SfsFs) (i : Nat) : Int :=
  match fs.inodes i with
  | some node => node.refCount
  | none => 0

/-- Inode `j` has one reference more, and nothing else changed. -/
structure Referenced (fs fs' : SfsFs) (j : Nat) : Prop where
  refs : ∀ k, refCount fs' k = refCount fs k + if k = j then 1 else 0
  inode : ∀ k, inodeOf fs' k = inodeOf fs k
  disk : fs'.disk = fs.disk
  freemap : fs'.freemap = fs.freemap
  super : fs'.super = fs.super

/-- The references that a lookup with a result is to leave: one more to the
inode it hands back, and none where it fails. -/
def LeavesRefs (fs fs' : SfsFs) : Except Err Nat → Prop
  | .ok j => Referenced fs fs' j
  | .error _ => fs' = fs

end Ucore.Sfs
