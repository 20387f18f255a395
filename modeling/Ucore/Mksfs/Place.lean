/-
What the blocks of an image are for.

An inode of mksfs has direct blocks, an indirect and a doubly indirect one. It
is looked at through a `View`, which is of what mksfs has cached or of what it
wrote: so the blocks of an image are those of the inodes that it was made of.
-/
import Ucore.Mksfs.Mksfs
import Ucore.Sfs.Account
import Ucore.Lib.Exact

namespace Ucore.Mksfs

open Sfs

/-- Inodes and blocks of block numbers. -/
structure View where
  din : Nat → DiskInode
  dbIndirect : Nat → Nat
  word : Nat → Nat → Nat

/-- What is cached. -/
def Image.view (s : Image) : View where
  din i := (s.nodes i).din
  dbIndirect i := (s.nodes i).dbIndirect
  word := s.caches

/-- What is on disk. -/
def diskView (disk : Nat → Nat → UInt8) : View where
  din i := DiskInode.ofBytes (disk i)
  dbIndirect i := getWord (disk i) sizeofDiskInode 4
  word c w := getWord (disk c) (w * 4) 4

/-- Where the number of a block stands in an inode: the inode itself, the block
with an index, the indirect and the doubly indirect block, and an entry of
this one. -/
inductive Place where
  | self
  | data (n : Nat)
  | indirect
  | dbIndirect
  | dbEntry (a : Nat)
deriving DecidableEq

/-- A block of block numbers. -/
def Place.Meta : Place → Prop
  | .indirect => True
  | .dbIndirect => True
  | .dbEntry _ => True
  | _ => False

namespace View

variable (v : View)

/-- A word of a block, if there is one. -/
def wordAt (c w : Nat) : Nat := if c = 0 then 0 else v.word c w

/-- The block with an index in a file. -/
def dataAt (i n : Nat) : Nat :=
  if h : n < sfsL0Nblks then (v.din i).direct ⟨n, h⟩
  else if n < sfsL1Nblks then v.wordAt (v.din i).indirect (n - sfsL0Nblks)
  else if n < sfsL2Nblks then
    v.wordAt (v.wordAt (v.dbIndirect i) ((n - sfsL1Nblks) / sfsBlkNentry))
      ((n - sfsL1Nblks) % sfsBlkNentry)
  else 0

/-- The block at a place of an inode, 0 if none. -/
def target (i : Nat) : Place → Nat
  | .self => i
  | .data n => v.dataAt i n
  | .indirect => (v.din i).indirect
  | .dbIndirect => v.dbIndirect i
  | .dbEntry a => if a < sfsBlkNentry then v.wordAt (v.dbIndirect i) a else 0

/-- Block `b` stands at place `x.2` of inode `x.1`. -/
def Refers (ino : Nat → Prop) (x : Nat × Place) (b : Nat) : Prop :=
  ino x.1 ∧ v.target x.1 x.2 = b ∧ b ≠ 0

end View

/-- The inode is cached. -/
def Image.Cached (s : Image) (i : Nat) : Prop := ∃ k, i ∈ s.inodes k

/-- The block is cached. -/
def Image.Buffered (s : Image) (c : Nat) : Prop := ∃ k, c ∈ s.blocks k

/-- The first block that is not reserved. -/
def firstIno (ninos : Nat) : Nat :=
  sfsBlknFreemap + (ninos + sfsBlkbits - 1) / sfsBlkbits

end Ucore.Mksfs
