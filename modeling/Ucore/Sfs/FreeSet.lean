/-
What the bitmap of a volume is for: the set of the free indexes below a
bound. The calls on a bitmap, and the same calls on such a set.
-/
import Ucore.Sfs.Mount
import Mathlib.Data.Finset.Max
import Mathlib.Data.Finset.Range

namespace Ucore.Sfs

/-- A call of the functions of a bitmap. -/
inductive BitmapCall where
  | alloc
  | free (index : Nat)
  | test (index : Nat)
  deriving DecidableEq

/-- What a call returns: an index (`none` is `-E_NO_MEM`), nothing, or the
value of a bit. -/
inductive BitmapReply where
  | index (i : Option Nat)
  | freed
  | value (v : Bool)
  deriving DecidableEq

/-- The call on a bitmap. It gives up where an assertion fails. -/
def bitmapCall (b : Bitmap) : BitmapCall → Option (BitmapReply × Bitmap)
  | .alloc =>
      (bitmapAlloc b).map fun
        | none => (.index none, b)
        | some (i, b') => (.index (some i), b')
  | .free index => (bitmapFree b index).map fun b' => (.freed, b')
  | .test index => (bitmapTest b index).map fun v => (.value v, b)

-- ========================================================= free sets

/-- The free indexes below a bound. -/
structure FreeSet (nbits : Nat) where
  free : Finset Nat
  below : ∀ i ∈ free, i < nbits

namespace FreeSet

variable {nbits : Nat}

/-- Every index is free. -/
def full (nbits : Nat) : FreeSet nbits where
  free := Finset.range nbits
  below _ := Finset.mem_range.1

/-- The index is taken. -/
def take (s : FreeSet nbits) (i : Nat) : FreeSet nbits where
  free := s.free.erase i
  below j hj := s.below j (Finset.mem_of_mem_erase hj)

/-- The index is given back. -/
def give (s : FreeSet nbits) (i : Nat) (h : i < nbits) : FreeSet nbits where
  free := insert i s.free
  below j hj := (Finset.mem_insert.1 hj).elim (fun heq => heq ▸ h) (s.below j)

/-- The call on the set: the least free index is allocated, where there is
one. Only indexes below the bound that are not free can be freed. -/
def call (s : FreeSet nbits) : BitmapCall → Option (BitmapReply × FreeSet nbits)
  | .alloc =>
      if h : s.free.Nonempty then
        some (.index (some (s.free.min' h)), s.take (s.free.min' h))
      else some (.index none, s)
  | .free index =>
      if h : index < nbits ∧ index ∉ s.free then
        some (.freed, s.give index h.1)
      else none
  | .test index =>
      if index < nbits then some (.value (decide (index ∈ s.free)), s)
      else none

end FreeSet

/-- The bits that are set are the free indexes, and the words hold as many
bits as were asked for. -/
structure Holds {nbits : Nat} (b : Bitmap) (s : FreeSet nbits) : Prop where
  nbits_eq : b.nbits = nbits
  words : nbits ≤ b.nwords * wordBits
  bits : ∀ i, b.bit i = true ↔ i ∈ s.free

end Ucore.Sfs
