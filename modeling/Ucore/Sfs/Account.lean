/-
The blocks of an SFS volume and what refers to them.

A volume is the file system and the set of its inodes, which the code keeps
in its directories: an inode of the set is a file of the image whose last
link and last reference are not both gone. What an inode maps is in memory
while it is loaded, and on disk otherwise.
-/
import Ucore.Sfs.Inode
import Mathlib.Data.Finset.Card

namespace Ucore.Sfs

-- ======================================================== references

/-- A file system and its inodes. -/
structure Volume where
  fs : SfsFs
  files : Finset Nat

/-- The inode with a number. -/
def inodeOf (fs : SfsFs) (i : Nat) : DiskInode :=
  match fs.inodes i with
  | some node => node.din
  | none => DiskInode.ofBytes (fs.disk i)

/-- Where a reference to a block can stand in an inode: the inode itself,
the direct slots, the indirect slot, the entries of the indirect block. -/
inductive Pos where
  | self
  | direct (k : Fin sfsNdirect)
  | indirect
  | entry (j : Fin sfsBlkNentry)
deriving DecidableEq

/-- An entry of an indirect block. -/
def entryAt (disk : Nat → Nat → UInt8) (ent j : Nat) : Nat :=
  getWord (disk ent) (j * 4) 4

/-- The block that inode `i` refers to at a position, 0 if none. -/
def target (fs : SfsFs) (i : Nat) : Pos → Nat
  | .self => i
  | .direct k => (inodeOf fs i).direct k
  | .indirect => (inodeOf fs i).indirect
  | .entry j =>
      if (inodeOf fs i).indirect = 0 then 0
      else entryAt fs.disk (inodeOf fs i).indirect j

/-- Block `b` is referenced at position `x.2` of inode `x.1`. -/
def Refers (v : Volume) (x : Nat × Pos) (b : Nat) : Prop :=
  x.1 ∈ v.files ∧ target v.fs x.1 x.2 = b ∧ b ≠ 0

/-- The number of reserved blocks: the super block, the root inode and the
free map. -/
def reservedBlocks (super : SfsSuper) : Nat :=
  sfsBlknFreemap + sfsFreemapBlocks super

/-- The free bits of the map. -/
def freeBits (fs : SfsFs) : Finset Nat :=
  (Finset.range (sfsFreemapBits fs.super)).filter fun b =>
    fs.freemap.bit b = true

/-- Block accounting. What a call allocates it makes an inode refer to or
frees again, so `range` speaks of the blocks it got, and `alloc` of the
next one. -/
structure Accounted (v : Volume) : Prop where
  used_iff : ∀ {b}, reservedBlocks v.fs.super ≤ b → b < v.fs.super.blocks →
    (v.fs.freemap.bit b = false ↔ ∃! x, Refers v x b)
  free : ∀ {b}, b ∈ freeBits v.fs → ∀ x, ¬ Refers v x b
  unused_eq : v.fs.super.unusedBlocks = (freeBits v.fs).card
  range : ∀ {x b}, Refers v x b → b < v.fs.super.blocks
    ∧ (reservedBlocks v.fs.super ≤ b ∨ b = sfsBlknRoot)
  alloc : ∀ {ino fs'}, sfsBlockAlloc v.fs = some (.ok ino, fs') →
    reservedBlocks v.fs.super ≤ ino ∧ ino < v.fs.super.blocks

-- ============================================================ images

/-- The index in its file of the block at a position. -/
def Pos.index : Pos → Option Nat
  | .direct k => some k
  | .entry j => some (sfsNdirect + j)
  | _ => none

/-- The block map of an inode holds nothing from index `n` on. -/
def CoveredBy (fs : SfsFs) (i n : Nat) : Prop :=
  ∀ {pos index}, pos.index = some index → n ≤ index → target fs i pos = 0

/-- A mounted, consistent image. Inodes may be in memory; those that are
not dirty agree with the disk. No inode maps a block at or past its block
count. -/
structure Consistent (v : Volume) : Prop where
  nbits : v.fs.freemap.nbits = sfsFreemapBits v.fs.super
  nwords : v.fs.freemap.nwords * wordBits = sfsFreemapBits v.fs.super
  blocks_lt : v.fs.super.blocks < 2 ^ 32
  free_range : ∀ {b}, b ∈ freeBits v.fs →
    reservedBlocks v.fs.super ≤ b ∧ b < v.fs.super.blocks
  unused_eq : v.fs.super.unusedBlocks = (freeBits v.fs).card
  used_iff : ∀ {b}, reservedBlocks v.fs.super ≤ b → b < v.fs.super.blocks →
    (v.fs.freemap.bit b = false ↔ ∃ x, Refers v x b)
  refers_once : ∀ {x y b}, Refers v x b → Refers v y b → x = y
  refers_range : ∀ {x b}, Refers v x b → b < v.fs.super.blocks
    ∧ (reservedBlocks v.fs.super ≤ b ∨ x = (sfsBlknRoot, .self))
  files_pos : ∀ {i}, i ∈ v.files → i ≠ 0
  root : sfsBlknRoot ∈ v.files
  root_dir : (inodeOf v.fs sfsBlknRoot).type = sfsTypeDir
  loaded : ∀ {i node}, v.fs.inodes i = some node →
    i ∈ v.files ∧ node.din.Fits
      ∧ (node.dirty = false → node.din = DiskInode.ofBytes (v.fs.disk i))
  covered : ∀ {i}, i ∈ v.files → CoveredBy v.fs i (inodeOf v.fs i).blocks

-- ============================================================= calls

/-- Calls on a volume. -/
inductive Op where
  | loadInode (ino : Nat)
  | refInc (sin : Nat)
  | refDec (sin : Nat)
  | fsync (sin : Nat)
  | bmapLoad (sin index : Nat)
  | truncfile (sin : Nat) (len : Int)

/-- The state a call that returns leaves. -/
def exec (fs : SfsFs) : Op → Option SfsFs
  | .loadInode ino => (sfsLoadInode ino fs).map Prod.snd
  | .refInc sin => (inodeRefInc sin fs).map Prod.snd
  | .refDec sin => (inodeRefDec sin fs).map Prod.snd
  | .fsync sin => (sfsFsync sin fs).map Prod.snd
  | .bmapLoad sin index => (sfsBmapLoadNolock sin index fs).map Prod.snd
  | .truncfile sin len => (vopTruncate sin len fs).map Prod.snd

/-- The inodes after a call: one whose last reference goes while it has no
links is gone. -/
def filesAfter (v : Volume) (fs' : SfsFs) : Op → Finset Nat
  | .refDec sin =>
      if (fs'.inodes sin).isNone ∧ (inodeOf v.fs sin).nlinks = 0 then
        v.files.erase sin
      else v.files
  | _ => v.files

/-- A call that returns. Inodes are loaded by the numbers of files. -/
inductive Step : Volume → Op → Volume → Prop
  | call {v : Volume} {op : Op} {fs' : SfsFs} :
      (∀ ino, op = .loadInode ino → ino ∈ v.files) →
      exec v.fs op = some fs' → Step v op ⟨fs', filesAfter v fs' op⟩

end Ucore.Sfs
