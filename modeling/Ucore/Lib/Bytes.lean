/-
The bytes of a word, the lowest first, words in buffers of bytes, and bytes
in frames of words.
-/
import Mathlib.Data.Nat.Basic
import Mathlib.Logic.Function.Basic
import Mathlib.Algebra.Group.Nat.Defs

namespace Ucore

/-- Byte `k` of a word. -/
def getByte (w k : Nat) : Nat := w / 256 ^ k % 256

/-- The word with byte `k` replaced: what lies above it, the byte, what
lies below it. -/
def setByte (w k b : Nat) : Nat :=
  (w / 256 ^ (k + 1) * 256 + b) * 256 ^ k + w % 256 ^ k

/-- The part of the new word from byte `k` on. -/
theorem setByte_div (w k b : Nat) :
    setByte w k b / 256 ^ k = w / 256 ^ (k + 1) * 256 + b := by
  have hpos : 0 < 256 ^ k := Nat.pow_pos (by decide)
  rw [setByte, Nat.mul_comm _ (256 ^ k), Nat.mul_add_div hpos,
    Nat.div_eq_of_lt (Nat.mod_lt w hpos), Nat.add_zero]

theorem getByte_setByte_self {w k b : Nat} (hb : b < 256) :
    getByte (setByte w k b) k = b := by
  rw [getByte, setByte_div]
  omega

/-- The other bytes stay. -/
theorem getByte_setByte_of_ne {w k j b : Nat} (hb : b < 256) (h : j ≠ k) :
    getByte (setByte w k b) j = getByte w j := by
  rcases Nat.lt_or_gt_of_ne h with hlt | hgt
  · -- below: the lower part is the old word's
    obtain ⟨d, rfl⟩ := Nat.exists_eq_add_of_lt hlt
    have hsplit : 256 ^ (j + d + 1) = 256 ^ j * (256 * 256 ^ d) := by
      rw [← Nat.pow_succ', ← Nat.pow_add]
      rfl
    have hlow : ∀ x, x % 256 ^ (j + d + 1) / 256 ^ j % 256
        = x / 256 ^ j % 256 := by
      intro x
      rw [hsplit, Nat.mod_mul_right_div_self, Nat.mod_mul_right_mod]
    have hsame : setByte w (j + d + 1) b % 256 ^ (j + d + 1)
        = w % 256 ^ (j + d + 1) := by
      rw [setByte, Nat.mul_add_mod_self_right, Nat.mod_mod]
    rw [getByte, getByte, ← hlow, hsame, hlow]
  · -- above: the upper part is the old word's
    obtain ⟨d, rfl⟩ := Nat.exists_eq_add_of_lt hgt
    have hsplit : 256 ^ (k + d + 1) = 256 ^ k * 256 * 256 ^ d := by
      rw [← Nat.pow_succ, ← Nat.pow_add]
      congr 1
      omega
    have hhigh : ∀ x, x / 256 ^ (k + d + 1)
        = x / 256 ^ k / 256 / 256 ^ d := by
      intro x
      rw [hsplit, Nat.div_div_eq_div_mul, Nat.div_div_eq_div_mul,
        Nat.mul_assoc]
    have hsame : setByte w k b / 256 ^ k / 256 = w / 256 ^ k / 256 := by
      rw [setByte_div, Nat.pow_succ, ← Nat.div_div_eq_div_mul]
      omega
    rw [getByte, getByte, hhigh, hsame, ← hhigh]

-- =========================================================== buffers

/-- The word whose `n` bytes start at `off` of a buffer. -/
def getWord (buf : Nat → UInt8) : (off n : Nat) → Nat
  | _, 0 => 0
  | off, n + 1 => (buf off).toNat + 256 * getWord buf (off + 1) n

/-- Byte `k` of a word. -/
def wordByte (w k : Nat) : UInt8 := UInt8.ofNat (getByte w k)

section Buffers

variable {buf buf' : Nat → UInt8} {off off' n w : Nat}

theorem getWord_lt : getWord buf off n < 256 ^ n := by
  induction n generalizing off with
  | zero => exact Nat.one_pos
  | succ n ih =>
      have hrest : getWord buf (off + 1) n < 256 ^ n := ih
      have hbyte := (buf off).toNat_lt
      rw [getWord, Nat.pow_succ]
      omega

/-- A word depends on its own bytes only. -/
theorem getWord_congr (h : ∀ k, k < n → buf' (off' + k) = buf (off + k)) :
    getWord buf' off' n = getWord buf off n := by
  induction n generalizing off off' with
  | zero => rfl
  | succ n ih =>
      have hfirst := h 0 (Nat.zero_lt_succ n)
      rw [Nat.add_zero, Nat.add_zero] at hfirst
      rw [getWord, getWord, hfirst, ih]
      intro k hk
      have hnext := h (k + 1) (Nat.succ_lt_succ hk)
      rwa [Nat.add_comm k 1, ← Nat.add_assoc, ← Nat.add_assoc] at hnext

/-- A word whose bytes were written reads back. -/
theorem getWord_wordByte (hw : w < 256 ^ n)
    (h : ∀ k, k < n → buf (off + k) = wordByte w k) :
    getWord buf off n = w := by
  induction n generalizing off w with
  | zero =>
      rw [getWord]
      omega
  | succ n ih =>
      have hfirst : (buf off).toNat = w % 256 := by
        have h0 := h 0 (Nat.zero_lt_succ n)
        rw [Nat.add_zero] at h0
        rw [h0, wordByte, getByte, Nat.pow_zero, Nat.div_one]
        simp
      have hrest : getWord buf (off + 1) n = w / 256 := by
        rw [Nat.pow_succ] at hw
        refine ih (by omega) fun k hk => ?_
        have hk' := h (k + 1) (Nat.succ_lt_succ hk)
        rw [Nat.add_comm k 1, ← Nat.add_assoc] at hk'
        rw [hk', wordByte, wordByte, getByte, getByte, Nat.div_div_eq_div_mul,
          Nat.add_comm 1 k, ← Nat.pow_succ']
      rw [getWord, hfirst, hrest]
      omega

/-- A cleared buffer reads as zero. -/
theorem getWord_zero (h : ∀ k, k < n → buf (off + k) = 0) :
    getWord buf off n = 0 := by
  apply getWord_wordByte (Nat.pow_pos (by decide))
  intro k hk
  rw [h k hk, wordByte, getByte, Nat.zero_div]
  rfl

end Buffers

-- ============================================================ frames

/-- Byte `i` of a frame of words of eight bytes. -/
def byteOf (frame : Nat → Nat) (i : Nat) : Nat :=
  getByte (frame (i / 8)) (i % 8)

/-- The frame with byte `i` replaced. -/
def putByte (frame : Nat → Nat) (i b : Nat) : Nat → Nat :=
  Function.update frame (i / 8) (setByte (frame (i / 8)) (i % 8) b)

/-- The frame with `n` bytes from `off` on replaced, the first one first. -/
def putBytes (frame : Nat → Nat) (off : Nat) (data : Nat → UInt8) :
    (n : Nat) → Nat → Nat
  | 0 => frame
  | n + 1 => putByte (putBytes frame off data n) (off + n) (data n).toNat

section Frames

variable {frame : Nat → Nat} {data : Nat → UInt8} {i j b off n : Nat}

theorem byteOf_putByte (hb : b < 256) :
    byteOf (putByte frame i b) j = if j = i then b else byteOf frame j := by
  unfold byteOf putByte
  by_cases hword : j / 8 = i / 8
  · rw [hword, Function.update_self]
    by_cases hj : j = i
    · rw [if_pos hj, hj, getByte_setByte_self hb]
    · rw [if_neg hj]
      apply getByte_setByte_of_ne hb
      omega
  · have hj : j ≠ i := fun hj => hword (hj ▸ rfl)
    rw [if_neg hj, Function.update_of_ne hword]

/-- What is read where bytes were stored, and elsewhere. -/
theorem byteOf_putBytes : byteOf (putBytes frame off data n) j
    = if off ≤ j ∧ j < off + n then (data (j - off)).toNat
      else byteOf frame j := by
  induction n with
  | zero =>
      rw [if_neg (by omega)]
      rfl
  | succ n ih =>
      rw [putBytes, byteOf_putByte (data n).toNat_lt, ih]
      by_cases hj : j = off + n
      · rw [if_pos hj, if_pos (by omega), hj, Nat.add_sub_cancel_left]
      · rw [if_neg hj]
        apply if_congr _ rfl rfl
        omega

end Frames

end Ucore
