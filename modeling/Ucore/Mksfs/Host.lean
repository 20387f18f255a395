/-
The directories that mksfs reads on the host: what `readdir` gives, entry by
entry, with what an entry leads to. The host knows a file by its `st_ino`.
-/
import Ucore.Sfs.Dir
import Mathlib.Algebra.Group.Nat.Defs

namespace Ucore.Mksfs

open Sfs

/-- What is left to read of a directory. -/
inductive Listing where
  | done
  | dir (name : List UInt8) (real : Nat) (entries rest : Listing)
  | file (name : List UInt8) (real : Nat) (data : List UInt8) (rest : Listing)
  | link (name : List UInt8) (real : Nat) (target : List UInt8) (rest : Listing)
  | other (name : List UInt8) (rest : Listing)

/-- `'.'`. -/
def dot : UInt8 := 0x2E

/-- The names that `open_dir` passes over. -/
def hidden (name : List UInt8) : Bool := name.head? = some dot

namespace Listing

/-- The names of a directory that are written. -/
def names : Listing → List (List UInt8)
  | .done => []
  | .dir name _ _ rest => if hidden name then rest.names else name :: rest.names
  | .file name _ _ rest => if hidden name then rest.names else name :: rest.names
  | .link name _ _ rest => if hidden name then rest.names else name :: rest.names
  | .other _ rest => rest.names

/-- The directories below, with what is in them. -/
def dirs : Listing → List (Nat × Listing)
  | .done => []
  | .dir name real entries rest =>
      if hidden name then rest.dirs
      else (real, entries) :: (entries.dirs ++ rest.dirs)
  | .file _ _ _ rest => rest.dirs
  | .link _ _ _ rest => rest.dirs
  | .other _ rest => rest.dirs

/-- The regular files here and below, one for each name. -/
def files : Listing → List (Nat × List UInt8)
  | .done => []
  | .dir name _ entries rest =>
      if hidden name then rest.files else entries.files ++ rest.files
  | .file name real data rest =>
      if hidden name then rest.files else (real, data) :: rest.files
  | .link _ _ _ rest => rest.files
  | .other _ rest => rest.files

/-- The symbolic links here and below. -/
def links : Listing → List Nat
  | .done => []
  | .dir name _ entries rest =>
      if hidden name then rest.links else entries.links ++ rest.links
  | .file _ _ _ rest => rest.links
  | .link name real _ rest =>
      if hidden name then rest.links else real :: rest.links
  | .other _ rest => rest.links

/-- The names of a directory are those of files, and different. -/
structure Named (l : Listing) : Prop where
  string : ∀ name ∈ l.names, 0 ∉ name
  single : ∀ name ∈ l.names, name ≠ [] ∧ slash ∉ name
  nodup : l.names.Nodup

/-- A property of a directory and of each directory below. -/
def All (p : Listing → Prop) (l : Listing) : Prop := p l ∧ ∀ d ∈ l.dirs, p d.2

end Listing

-- ============================================================= paths

/-- What a path leads to. -/
inductive Node where
  | dir (entries : Listing)
  | file (real : Nat) (data : List UInt8)
  | link

/-- What a directory has under a name that is not hidden. -/
def Listing.find (name : List UInt8) : Listing → Option Node
  | .done => none
  | .dir n _ entries rest =>
      if n = name ∧ hidden n ≠ true then some (.dir entries) else rest.find name
  | .file n real data rest =>
      if n = name ∧ hidden n ≠ true then some (.file real data)
      else rest.find name
  | .link n _ _ rest =>
      if n = name ∧ hidden n ≠ true then some .link else rest.find name
  | .other _ rest => rest.find name

/-- What names lead to, one after the other, from a node that is below the
directories `up`, the nearest first. -/
def walk : List Listing → Node → List (List UInt8) → Except Err Node
  | _, node, [] => .ok node
  | up, .dir l, name :: names =>
      if name = [dot] then walk up (.dir l) names
      else if name = [dot, dot] then walk up.tail (.dir (up.headD l)) names
      else
        match l.find name with
        | none => .error .noEnt
        | some node => walk (l :: up) node names
  | _, .file _ _, _ :: _ => .error .notDir
  | _, .link, _ :: _ => .error .notDir

-- ============================================================= trees

/-- A directory tree of a host: names are good, and `st_ino` tells the regular
files, with their contents, from each other and from what else there is. -/
structure HostTree where
  listing : Listing
  root : listing.Named
  named : ∀ d ∈ listing.dirs, d.2.Named
  sameFile : ∀ {real data data'}, (real, data) ∈ listing.files →
    (real, data') ∈ listing.files → data' = data
  fileReal : ∀ {real data}, (real, data) ∈ listing.files →
    real ≠ 0 ∧ real ∉ listing.links ∧ ∀ d ∈ listing.dirs, d.1 ≠ real

namespace HostTree

variable (tree : HostTree)

/-- The kernel can map the blocks of each directory, one for each entry, and of
each file. -/
structure Mapped : Prop where
  root : tree.listing.names.length + 2 ≤ maxBlocks
  dirs : ∀ d ∈ tree.listing.dirs, d.2.names.length + 2 ≤ maxBlocks
  files : ∀ f ∈ tree.listing.files, roundupDiv f.2.length sfsBlksize ≤ maxBlocks

/-- There are no symbolic links, and `nlinks` of no file is 0 when its names are
counted. -/
structure Plain : Prop where
  links : tree.listing.links = []
  count : ∀ f ∈ tree.listing.files,
    (tree.listing.files.map Prod.fst).count f.1 % 2 ^ 16 ≠ 0

end HostTree

end Ucore.Mksfs
