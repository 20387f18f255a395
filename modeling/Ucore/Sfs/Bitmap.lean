/-
kern/fs/sfs/bitmap.c: a fixed array of bits. In the map of an SFS volume a
set bit is a free block.
-/
import Mathlib.Logic.Function.Basic

namespace Ucore.Sfs

/-- `WORD_BITS`. -/
def wordBits : Nat := 32

/-- `struct bitmap`. -/
structure Bitmap where
  nbits : Nat
  nwords : Nat
  map : Nat → BitVec 32

/-- `1 << offset`. -/
def bitMask (offset : Nat) : BitVec 32 := 1#32 <<< offset

/-- `bitmap_alloc`: the first set bit, which is cleared. The outer `none`
is the failed assertion, the inner one `-E_NO_MEM`. -/
def bitmapAlloc (b : Bitmap) : Option (Option (Nat × Bitmap)) :=
  match (List.range b.nwords).find? fun ix => decide (b.map ix ≠ 0) with
  | none => some none
  | some ix =>
      let bits := List.range wordBits
      match bits.find? fun offset => decide (b.map ix &&& bitMask offset ≠ 0)
      with
      | none => none
      | some offset =>
          let word := b.map ix ^^^ bitMask offset
          some (some (ix * wordBits + offset,
            { b with map := Function.update b.map ix word }))

/-- `bitmap_test`. -/
def bitmapTest (b : Bitmap) (index : Nat) : Option Bool :=
  if index < b.nbits then
    some (decide (b.map (index / wordBits) &&& bitMask (index % wordBits) ≠ 0))
  else none

/-- `bitmap_free`. -/
def bitmapFree (b : Bitmap) (index : Nat) : Option Bitmap :=
  if index < b.nbits then
    let word := b.map (index / wordBits)
    let mask := bitMask (index % wordBits)
    if word &&& mask = 0 then
      some { b with
        map := Function.update b.map (index / wordBits) (word ||| mask) }
    else none
  else none

-- ========================================================== its bits

/-- Bit `i` is set. -/
def Bitmap.bit (b : Bitmap) (i : Nat) : Bool :=
  (b.map (i / wordBits)).getLsbD (i % wordBits)

theorem bit_update (b : Bitmap) (ix j : Nat) (w : BitVec 32) :
    ({ b with map := Function.update b.map ix w } : Bitmap).bit j
      = if j / wordBits = ix then w.getLsbD (j % wordBits) else b.bit j := by
  unfold Bitmap.bit
  dsimp only
  by_cases hj : j / wordBits = ix
  · rw [hj, Function.update_self, if_pos rfl]
  · rw [Function.update_of_ne hj, if_neg hj]

theorem bitMask_eq (offset : Nat) :
    bitMask offset = BitVec.twoPow 32 offset := rfl

theorem and_bitMask (w : BitVec 32) {offset : Nat} (h : offset < wordBits) :
    w &&& bitMask offset ≠ 0 ↔ w.getLsbD offset = true := by
  rw [bitMask_eq, BitVec.and_twoPow]
  cases w.getLsbD offset with
  | true =>
      simp only [if_true, iff_true]
      intro hzero
      have hbit := congrArg (·.getLsbD offset) hzero
      have hlt : offset < 32 := h
      simp [hlt] at hbit
  | false => simp

/-- What is left of `bitmap_test`. -/
theorem bitmapTest_eq_some {b : Bitmap} {i : Nat} {v : Bool} :
    bitmapTest b i = some v ↔ i < b.nbits ∧ b.bit i = v := by
  have hlt : i % wordBits < wordBits := Nat.mod_lt _ (by decide)
  unfold bitmapTest
  split
  case isTrue h =>
      simp only [h, true_and, Option.some.injEq, and_bitMask _ hlt,
        Bitmap.bit]
      cases (b.map (i / wordBits)).getLsbD (i % wordBits) <;> simp
  case isFalse h => simp [h]

/-- `bitmap_free` sets a clear bit and no other. -/
theorem bitmapFree_spec {b b' : Bitmap} {i : Nat}
    (h : bitmapFree b i = some b') :
    b'.nbits = b.nbits ∧ b'.nwords = b.nwords ∧ i < b.nbits
      ∧ b.bit i = false ∧ ∀ j, b'.bit j = (decide (j = i) || b.bit j) := by
  have hlt : i % wordBits < wordBits := Nat.mod_lt _ (by decide)
  unfold bitmapFree at h
  split at h
  case isFalse => cases h
  case isTrue hi =>
      dsimp only at h
      split at h
      case isFalse => cases h
      case isTrue hzero =>
          cases h
          have hclear : b.bit i = false := by
            have hno := mt (and_bitMask _ hlt).mpr (not_not_intro hzero)
            exact Bool.eq_false_iff.mpr hno
          refine ⟨rfl, rfl, hi, hclear, fun j => ?_⟩
          rw [bit_update]
          by_cases hw : j / wordBits = i / wordBits
          · rw [if_pos hw, BitVec.getLsbD_or, bitMask_eq,
              BitVec.getLsbD_twoPow, Bool.or_comm, Bitmap.bit, hw]
            congr 1
            unfold wordBits at *
            rw [Bool.eq_iff_iff]
            simp only [Bool.and_eq_true, decide_eq_true_eq]
            omega
          · have hne : j ≠ i := fun heq => hw (heq ▸ rfl)
            rw [if_neg hw, decide_eq_false hne, Bool.false_or]

/-- `bitmap_alloc` clears a set bit and no other. It fails only when no bit
is set. -/
theorem bitmapAlloc_spec {b : Bitmap} {r : Option (Nat × Bitmap)}
    (h : bitmapAlloc b = some r) :
    (r = none ∧ ∀ i, i < b.nwords * wordBits → b.bit i = false)
      ∨ ∃ i b', r = some (i, b') ∧ b'.nbits = b.nbits
        ∧ b'.nwords = b.nwords ∧ i < b.nwords * wordBits ∧ b.bit i = true
        ∧ ∀ j, b'.bit j = (!decide (j = i) && b.bit j) := by
  unfold bitmapAlloc at h
  cases hix : (List.range b.nwords).find? fun ix => decide (b.map ix ≠ 0) with
  | none =>
      rw [hix] at h
      cases h
      refine Or.inl ⟨rfl, fun i hi => ?_⟩
      have hword := List.find?_eq_none.mp hix (i / wordBits)
        (List.mem_range.mpr ((Nat.div_lt_iff_lt_mul (by decide)).mpr hi))
      rw [decide_eq_true_eq, not_not] at hword
      rw [Bitmap.bit, hword]
      exact BitVec.getLsbD_zero
  | some ix =>
      rw [hix] at h
      dsimp only at h
      have hixlt : ix < b.nwords :=
        List.mem_range.mp (List.mem_of_find?_eq_some hix)
      cases hoff : (List.range wordBits).find? fun offset =>
          decide (b.map ix &&& bitMask offset ≠ 0) with
      | none => rw [hoff] at h; cases h
      | some offset =>
          rw [hoff] at h
          cases h
          have hlt : offset < wordBits :=
            List.mem_range.mp (List.mem_of_find?_eq_some hoff)
          have hset := List.find?_some hoff
          rw [decide_eq_true_eq, and_bitMask _ hlt] at hset
          have hdiv : (ix * wordBits + offset) / wordBits = ix := by
            unfold wordBits at *
            omega
          have hmod : (ix * wordBits + offset) % wordBits = offset := by
            unfold wordBits at *
            omega
          have hbit : b.bit (ix * wordBits + offset) = true := by
            rw [Bitmap.bit, hdiv, hmod]
            exact hset
          have hrange : ix * wordBits + offset < b.nwords * wordBits := by
            unfold wordBits at *
            omega
          refine Or.inr ⟨_, _, rfl, rfl, rfl, hrange, hbit, fun j => ?_⟩
          rw [bit_update]
          by_cases hj : j = ix * wordBits + offset
          · subst hj
            rw [if_pos hdiv, hmod, BitVec.getLsbD_xor, hset, bitMask_eq,
              BitVec.getLsbD_twoPow]
            unfold wordBits at hlt
            simp [hlt]
          · rw [decide_eq_false hj, Bool.not_false, Bool.true_and]
            by_cases hw : j / wordBits = ix
            · have hne : offset ≠ j % wordBits := by
                unfold wordBits at *
                omega
              rw [if_pos hw, BitVec.getLsbD_xor, bitMask_eq,
                BitVec.getLsbD_twoPow, decide_eq_false hne, Bool.and_false,
                Bool.xor_false, Bitmap.bit, hw]
            · rw [if_neg hw]

end Ucore.Sfs
