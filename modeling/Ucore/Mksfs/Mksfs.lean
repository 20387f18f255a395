/-
tools/mksfs.c: an image of SFS is made from a directory of the host.

mksfs.c defines the constants of SFS again, with the same values. A pointer to
a cached inode or block is its number. `none` is an exit with an error: `bug`,
or an assertion. Reads and writes of files are whole, and what is printed is
left out, with the path that is kept for it. `stored` and `written` say for an
inode the blocks that it was given, and the names with their inodes, the first
one first; no function reads them.
-/
import Ucore.Mksfs.Host
import Ucore.Sfs.Mount
import Mathlib.Algebra.Group.Nat.Defs

namespace Ucore.Mksfs

open Sfs

-- ========================================================= constants

/-- `SFS_MAX_NBLKS`. -/
def sfsMaxNblks : Nat := 1024 * 512
/-- `SFS_TYPE_LINK`. -/
def sfsTypeLink : Nat := 3
/-- `HASH_SHIFT`. -/
def hashShift : Nat := 10
/-- `HASH_LIST_SIZE`. -/
def hashListSize : Nat := 2 ^ hashShift
/-- `SFS_L0_NBLKS`. -/
def sfsL0Nblks : Nat := sfsNdirect
/-- `SFS_L1_NBLKS`. -/
def sfsL1Nblks : Nat := sfsBlkNentry + sfsL0Nblks
/-- `SFS_L2_NBLKS`. -/
def sfsL2Nblks : Nat := sfsBlkNentry * sfsBlkNentry + sfsL1Nblks
/-- `SFS_LN_NBLKS`. -/
def sfsLnNblks : Nat := sfsMaxFileSize / sfsBlksize

/-- `hash32`, and `hash64` of what is left of a number in 32 bits. -/
def hash32 (val : Nat) : Nat :=
  val % 2 ^ 32 * 0x9e370001 % 2 ^ 32 / 2 ^ (32 - hashShift)

-- ============================================================= state

/-- `struct cache_inode`; `din` is its inode up to `db_indirect`. -/
structure CacheInode where
  din : DiskInode
  dbIndirect : Nat
  real : Nat
  nblks : Nat
  l1 : Option Nat
  l2 : Option Nat

/-- `struct sfs_fs`, with what is cached by number, the image, and the name of
`__entry`. -/
structure Image where
  super : SfsSuper
  ninos : Nat
  nextIno : Nat
  nodes : Nat → CacheInode
  inodes : Nat → List Nat
  caches : Nat → Nat → Nat
  blocks : Nat → List Nat
  disk : Nat → Nat → UInt8
  entryName : Nat → UInt8
  stored : Nat → List Nat
  written : Nat → List (List UInt8 × Nat)

/-- What runs on it. -/
abbrev MksfsM := Call Image

-- ============================================================ caches

/-- `sfs_alloc_ino`. -/
def sfsAllocIno : MksfsM Nat := do
  let s ← Call.get
  if s.nextIno < s.ninos then
    Call.modify fun s => { s with
      super := { s.super with unusedBlocks := s.super.unusedBlocks - 1 }
      nextIno := s.nextIno + 1 }
    return s.nextIno
  else Call.panic

/-- `alloc_cache_block`: the list that it goes into is that of its argument. -/
def allocCacheBlock (ino : Nat) : MksfsM Nat := do
  let number ← if ino ≠ 0 then pure ino else sfsAllocIno
  Call.modify fun s => { s with
    caches := Function.update s.caches number fun _ => 0
    blocks := Function.update s.blocks (hash32 ino)
      (number :: s.blocks (hash32 ino)) }
  return number

/-- `search_cache_block`. -/
def searchCacheBlock (ino : Nat) : MksfsM (Option Nat) := do
  let s ← Call.get
  return (s.blocks (hash32 ino)).find? (· = ino)

/-- A new inode of a type. -/
def newInode (real type : Nat) : CacheInode where
  din := { size := 0, type := type, nlinks := 0, blocks := 0
           direct := fun _ => 0, indirect := 0 }
  dbIndirect := 0
  real := real
  nblks := 0
  l1 := none
  l2 := none

/-- `alloc_cache_inode`. -/
def allocCacheInode (real ino type : Nat) : MksfsM Nat := do
  let number ← if ino ≠ 0 then pure ino else sfsAllocIno
  Call.modify fun s => { s with
    nodes := Function.update s.nodes number (newInode real type)
    inodes := Function.update s.inodes (hash32 real)
      (number :: s.inodes (hash32 real)) }
  return number

/-- `search_cache_inode`. -/
def searchCacheInode (real : Nat) : MksfsM (Option Nat) := do
  let s ← Call.get
  return (s.inodes (hash32 real)).find? fun ino => (s.nodes ino).real = real

def getNode (ino : Nat) : MksfsM CacheInode := do
  let s ← Call.get
  return s.nodes ino

def setNode (ino : Nat) (ci : CacheInode) : MksfsM Unit :=
  Call.modify fun s => { s with nodes := Function.update s.nodes ino ci }

/-- A word of a cached block. -/
def getCache (ino index : Nat) : MksfsM Nat := do
  let s ← Call.get
  return s.caches ino index

def setCache (ino index word : Nat) : MksfsM Unit :=
  Call.modify fun s => { s with
    caches := Function.update s.caches ino
      (Function.update (s.caches ino) index word) }

-- =========================================================== writing

/-- `write_block`. -/
def writeBlock (data : Nat → UInt8) (len ino : Nat) : MksfsM Unit := do
  let s ← Call.get
  Call.assert (len ≤ sfsBlksize ∧ ino < s.ninos)
  Call.modify fun s => { s with
    disk := Function.update s.disk ino fun k => if k < len then data k else 0 }

/-- The bytes of a cached block. -/
def cacheBytes (words : Nat → Nat) (k : Nat) : UInt8 :=
  wordByte (words (k / 4)) (k % 4)

/-- `sizeof(ci->inode)`. -/
def sizeofInode : Nat := 68

/-- The bytes of a cached inode. -/
def CacheInode.toBytes (ci : CacheInode) (k : Nat) : UInt8 :=
  if k < sizeofDiskInode then ci.din.toBytes k
  else wordByte ci.dbIndirect (k - sizeofDiskInode)

/-- `update_cache`: the block that `*cbp` and `*inop` are then. -/
def updateCache (cbp : Option Nat) (inop : Nat) : MksfsM Nat := do
  if inop = 0 then allocCacheBlock 0
  else if cbp = some inop then return inop
  else
    let cb ← searchCacheBlock inop
    Call.ofOption cb

/-- The part of `append_block` for the block `index` of a file behind its
indirect block. -/
def appendIndirect (file index ino : Nat) : MksfsM Unit := do
  let ci ← getNode file
  let l1 ← updateCache ci.l1 ci.din.indirect
  setNode file { ci with din := { ci.din with indirect := l1 }, l1 := some l1 }
  setCache l1 index ino

/-- The part for one behind the doubly indirect block. -/
def appendDbIndirect (file index ino : Nat) : MksfsM Unit := do
  let ci ← getNode file
  let l2 ← updateCache ci.l2 ci.dbIndirect
  setNode file { ci with dbIndirect := l2, l2 := some l2 }
  let ci ← getNode file
  let data2 ← getCache l2 (index / sfsBlkNentry)
  let l1 ← updateCache ci.l1 data2
  setNode file { ci with l1 := some l1 }
  setCache l2 (index / sfsBlkNentry) l1
  setCache l1 (index % sfsBlkNentry) ino

/-- `append_block`. -/
def appendBlock (file size ino : Nat) : MksfsM Unit := do
  Call.assert (size ≤ sfsBlksize)
  let ci ← getNode file
  let nblks := ci.nblks
  if sfsLnNblks ≤ nblks then Call.panic
  else
    if h : nblks < sfsL0Nblks then
      setNode file { ci with din := { ci.din with
        direct := Function.update ci.din.direct ⟨nblks, h⟩ ino } }
    else if nblks < sfsL1Nblks then
      appendIndirect file (nblks - sfsL0Nblks) ino
    else if nblks < sfsL2Nblks then
      appendDbIndirect file (nblks - sfsL1Nblks) ino
    let ci ← getNode file
    setNode file { ci with
      nblks := ci.nblks + 1
      din := { ci.din with
        size := (ci.din.size + size) % 2 ^ 32
        blocks := (ci.din.blocks + 1) % 2 ^ 32 } }
    Call.modify fun s => { s with
      stored := Function.update s.stored file (s.stored file ++ [ino]) }

-- =========================================================== entries

/-- `strcpy` into the name of an entry. -/
def copyName (old : Nat → UInt8) (name : List UInt8) (k : Nat) : UInt8 :=
  if h : k < name.length then name[k] else if k = name.length then 0 else old k

/-- The bytes of an entry. -/
def entryBytes (ino : Nat) (name : Nat → UInt8) (k : Nat) : UInt8 :=
  if k < 4 then wordByte ino k else name (k - 4)

/-- `sizeof(entry->name)`. -/
def sizeofName : Nat := sfsMaxFnameLen + 1

/-- `add_entry`. -/
def addEntry (current file : Nat) (name : List UInt8) : MksfsM Unit := do
  let ci ← getNode current
  Call.assert (ci.din.type = sfsTypeDir ∧ name.length ≤ sfsMaxFnameLen)
  Call.modify fun s => { s with entryName := copyName s.entryName name }
  let entryIno ← sfsAllocIno
  let s ← Call.get
  writeBlock (entryBytes file s.entryName) sizeofName entryIno
  appendBlock current sizeofName entryIno
  let ci ← getNode file
  setNode file { ci with
    din := { ci.din with nlinks := (ci.din.nlinks + 1) % 2 ^ 16 } }
  Call.modify fun s => { s with
    written := Function.update s.written current
      (s.written current ++ [(name, file)]) }

/-- The reads of `open_file` from block `i` on, `n` of them; `last` is what the
one before returned. -/
def readFile (file : Nat) (data : List UInt8) : (n i last : Nat) → MksfsM Unit
  | 0, _, _ => return ()
  | n + 1, i, last => do
      let buffer := (data.drop (i * sfsBlksize)).take sfsBlksize
      Call.assert (last = sfsBlksize)
      let ino ← sfsAllocIno
      writeBlock (fun k => buffer.getD k 0) buffer.length ino
      appendBlock file buffer.length ino
      readFile file data n (i + 1) buffer.length

/-- `open_file`. -/
def openFile (file : Nat) (data : List UInt8) : MksfsM Unit :=
  readFile file data (roundupDiv data.length sfsBlksize) 0 sfsBlksize

/-- `open_link`. -/
def openLink (file : Nat) (target : List UInt8) : MksfsM Unit := do
  let ino ← sfsAllocIno
  if sfsBlksize ≤ target.length then Call.panic
  else
    writeBlock (fun k => target.getD k 0) target.length ino
    appendBlock file target.length ino

/-- `add_file`. -/
def addFile (current : Nat) (name : List UInt8) (real : Nat)
    (data : List UInt8) : MksfsM Unit := do
  match ← searchCacheInode real with
  | some file => addEntry current file name
  | none =>
      let file ← allocCacheInode real 0 sfsTypeFile
      openFile file data
      addEntry current file name

/-- `add_link`. -/
def addLink (current : Nat) (name : List UInt8) (real : Nat)
    (target : List UInt8) : MksfsM Unit := do
  let file ← allocCacheInode real 0 sfsTypeLink
  openLink file target
  addEntry current file name

/-- `open_dir`, with its loop. -/
def openDir (loop : Nat → MksfsM Unit) (current parent : Nat) : MksfsM Unit := do
  addEntry current current [dot]
  addEntry current parent [dot, dot]
  loop current

/-- `add_dir`, with the loop of `open_dir`. -/
def addDir (loop : Nat → MksfsM Unit) (parent : Nat) (name : List UInt8)
    (real : Nat) : MksfsM Unit := do
  let found ← searchCacheInode real
  Call.assert (found = none)
  let current ← allocCacheInode real 0 sfsTypeDir
  openDir loop current parent
  addEntry parent current name

/-- What the loop of `open_dir` does with a name. -/
def withName (name : List UInt8) (add : MksfsM Unit) : MksfsM Unit :=
  if hidden name = true then return ()
  else if sfsMaxFnameLen < name.length then Call.panic
  else add

/-- The loop of `open_dir`. -/
def readEntries : Listing → Nat → MksfsM Unit
  | .done, _ => return ()
  | .dir name real entries rest, current => do
      withName name (addDir (readEntries entries) current name real)
      readEntries rest current
  | .file name real data rest, current => do
      withName name (addFile current name real data)
      readEntries rest current
  | .link name real target rest, current => do
      withName name (addLink current name real target)
      readEntries rest current
  | .other name rest, current => do
      withName name (return ())
      readEntries rest current

-- ========================================================= the image

/-- `create_sfs` for an image file of `size` bytes, which holds `disk`; `info`
is what `malloc` and `snprintf` leave there. -/
def createSfs (size : Nat) (disk : Nat → Nat → UInt8)
    (info : Fin (sfsMaxInfoLen + 1) → UInt8) : Option Image :=
  let ninos := min (size / sfsBlksize % 2 ^ 32) sfsMaxNblks
  let nextIno := sfsBlknFreemap + (ninos + sfsBlkbits - 1) / sfsBlkbits
  if ninos ≤ nextIno then none
  else
    (allocCacheInode 0 sfsBlknRoot sfsTypeDir {
      super := { blocks := ninos, unusedBlocks := ninos - nextIno, info := info }
      ninos := ninos
      nextIno := nextIno
      nodes := fun _ => newInode 0 0
      inodes := fun _ => []
      caches := fun _ _ => 0
      blocks := fun _ => []
      disk := disk
      entryName := fun _ => 0
      stored := fun _ => []
      written := fun _ => [] }).map Prod.snd

/-- The loop of `close_sfs` that sets `n` bits from `j` on. -/
def setBits (data : Nat → BitVec 32) : (n j : Nat) → Nat → BitVec 32
  | 0, _ => data
  | n + 1, j =>
      setBits (Function.update data (j / wordBits)
        (data (j / wordBits) ||| bitMask (j % wordBits))) n (j + 1)

/-- The bits of the free map from block `i` on, as `close_sfs` computes
them. -/
def freemapWords (ninos nextIno i : Nat) : Nat → BitVec 32 :=
  if nextIno < i + sfsBlkbits then
    let start := if i < nextIno then nextIno - i else 0
    let stop := if ninos < i + sfsBlkbits then ninos - i else sfsBlkbits
    setBits (fun _ => 0) (stop - start) start
  else fun _ => 0

/-- The loop of `close_sfs` that writes `n` blocks of the free map from block
`j` of it on. -/
def writeFreemap : (n j : Nat) → MksfsM Unit
  | 0, _ => return ()
  | n + 1, j => do
      let s ← Call.get
      let words := freemapWords s.ninos s.nextIno (j * sfsBlkbits)
      writeBlock (cacheBytes fun ix => (words ix).toNat) sfsBlksize
        (sfsBlknFreemap + j)
      writeFreemap n (j + 1)

/-- `flush_cache_block`, for a list of blocks. -/
def flushCacheBlocks : List Nat → MksfsM Unit
  | [] => return ()
  | cb :: cbs => do
      let s ← Call.get
      writeBlock (cacheBytes (s.caches cb)) sfsBlksize cb
      flushCacheBlocks cbs

/-- `flush_cache_inode`, for a list of inodes. -/
def flushCacheInodes : List Nat → MksfsM Unit
  | [] => return ()
  | ci :: cis => do
      let node ← getNode ci
      writeBlock node.toBytes sizeofInode ci
      flushCacheInodes cis

/-- The last loop of `close_sfs`, over `n` lists from `i` on. -/
def flushCaches : (n i : Nat) → MksfsM Unit
  | 0, _ => return ()
  | n + 1, i => do
      let s ← Call.get
      flushCacheBlocks (s.blocks i)
      flushCacheInodes (s.inodes i)
      flushCaches n (i + 1)

/-- `sizeof(sfs->super)`. -/
def sizeofSuper : Nat := 44

/-- `close_sfs`. -/
def closeSfs : MksfsM Unit := do
  let s ← Call.get
  writeFreemap (roundupDiv s.ninos sfsBlkbits) 0
  let s ← Call.get
  writeBlock s.super.toBytes sizeofSuper sfsBlknSuper
  flushCaches hashListSize 0

/-- `create_img` after `open_img`: the image that is made. -/
def createImg (size : Nat) (disk : Nat → Nat → UInt8)
    (info : Fin (sfsMaxInfoLen + 1) → UInt8) (home : Listing) : Option Image :=
  (createSfs size disk info).bind fun s =>
    ((openDir (readEntries home) sfsBlknRoot sfsBlknRoot >>= fun _ => closeSfs)
      s).map Prod.snd

end Ucore.Mksfs
