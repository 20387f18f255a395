/-
A bitmap behaves as the set of its free indexes, whatever the calls. Only
`bitmap_create` knows of the bits left over in the last word: it clears them,
so that an index at or over the bound is never free.
-/
import Ucore.Lib.Trace
import Ucore.Sfs.FreeSet
import Ucore.Sfs.Proofs.Returns

namespace Ucore.Sfs

variable {nbits : Nat} {b : Bitmap} {s : FreeSet nbits}

-- ========================================================== creation

/-- The leftover bits are turned over, from the first one up. -/
theorem getLsbD_markLeftover {k : Nat} (hk : k < wordBits) (n : Nat) :
    ∀ (overbits : Nat) (word : BitVec 32),
      (markLeftover n overbits word).getLsbD k
        = (word.getLsbD k ^^ decide (overbits ≤ k ∧ k < overbits + n)) := by
  have hk32 : k < 32 := hk
  induction n with
  | zero =>
      intro overbits word
      have hno : ¬ (overbits ≤ k ∧ k < overbits + 0) := by omega
      simp only [markLeftover, hno, decide_false, Bool.xor_false]
  | succ n ih =>
      intro overbits word
      unfold markLeftover
      rw [ih, BitVec.getLsbD_xor, bitMask_eq, BitVec.getLsbD_twoPow,
        Bool.xor_assoc]
      congr 1
      by_cases hfirst : overbits = k
      · have hno : ¬ (overbits + 1 ≤ k ∧ k < overbits + 1 + n) := by omega
        have hyes : overbits ≤ k ∧ k < overbits + (n + 1) := by omega
        rw [decide_eq_false hno, decide_eq_true hyes]
        simp [hfirst, hk32]
      · have hiff : (overbits + 1 ≤ k ∧ k < overbits + 1 + n)
            ↔ (overbits ≤ k ∧ k < overbits + (n + 1)) := by omega
        have hsame : decide (overbits + 1 ≤ k ∧ k < overbits + 1 + n)
            = decide (overbits ≤ k ∧ k < overbits + (n + 1)) :=
          decide_eq_decide.2 hiff
        rw [hsame]
        simp only [hfirst, decide_false, Bool.and_false, Bool.false_xor]

/-- The words that `memset` fills hold ones. -/
theorem getLsbD_filled (nwords i : Nat) :
    ((if i / wordBits < nwords then BitVec.allOnes 32 else 0).getLsbD
      (i % wordBits)) = decide (i < nwords * wordBits) := by
  have hmod : i % wordBits < 32 := Nat.mod_lt _ (by decide)
  have hiff : i / wordBits < nwords ↔ i < nwords * wordBits :=
    Nat.div_lt_iff_lt_mul (by decide)
  by_cases h : i / wordBits < nwords
  · have hlt := hiff.1 h
    rw [if_pos h, BitVec.getLsbD_allOnes, decide_eq_true hmod,
      decide_eq_true hlt]
  · have hge := mt hiff.2 h
    simp [h, hge]

/-- `bitmap_create` makes the map in which every index is free. -/
theorem bitmapCreate_holds (hpos : nbits ≠ 0) :
    ∃ b, bitmapCreate nbits = some b ∧ Holds b (FreeSet.full nbits) := by
  have hround : roundupDiv nbits wordBits = (nbits + 31) / 32 := rfl
  unfold bitmapCreate
  dsimp only
  rw [if_pos hpos, hround]
  by_cases hwhole : nbits = (nbits + 31) / 32 * wordBits
  · rw [if_neg (not_not_intro hwhole)]
    refine ⟨_, rfl, rfl, Nat.le_of_eq hwhole, fun i => ?_⟩
    unfold Bitmap.bit
    dsimp only
    rw [getLsbD_filled, ← hwhole, decide_eq_true_eq]
    exact Finset.mem_range.symm
  · -- the word that is not whole is the last one
    have hlast : nbits / wordBits = (nbits + 31) / 32 - 1 := by
      unfold wordBits at *
      omega
    have hover : 0 < nbits - ((nbits + 31) / 32 - 1) * wordBits
        ∧ nbits - ((nbits + 31) / 32 - 1) * wordBits < wordBits := by
      unfold wordBits at *
      omega
    rw [if_pos hwhole, if_pos ⟨hlast, hover⟩]
    refine ⟨_, rfl, rfl, ?_, fun i => ?_⟩
    · show nbits ≤ (nbits + 31) / 32 * wordBits
      unfold wordBits
      omega
    · have hmod : i % wordBits < wordBits := Nat.mod_lt _ (by decide)
      have hbit := bit_update
        { nbits := nbits, nwords := (nbits + 31) / 32,
          map := fun ix =>
            if ix < (nbits + 31) / 32 then BitVec.allOnes 32 else 0 }
        ((nbits + 31) / 32 - 1) i
      rw [show (i ∈ (FreeSet.full nbits).free) = (i < nbits) from
        propext Finset.mem_range, hbit]
      by_cases hix : i / wordBits = (nbits + 31) / 32 - 1
      · have hfilled := getLsbD_filled ((nbits + 31) / 32) i
        rw [hix] at hfilled
        rw [if_pos hix, getLsbD_markLeftover hmod, hfilled]
        unfold wordBits at *
        have hin : i < (nbits + 31) / 32 * 32 := by omega
        simp only [hin, decide_true, Bool.true_xor, Bool.not_eq_true',
          decide_eq_false_iff_not]
        omega
      · rw [if_neg hix]
        unfold Bitmap.bit
        dsimp only
        rw [getLsbD_filled, decide_eq_true_eq]
        unfold wordBits at *
        omega

-- ========================================================= the calls

/-- `bitmap_alloc` takes the least bit that is set. -/
theorem bitmapAlloc_least {b' : Bitmap} {i : Nat}
    (h : bitmapAlloc b = some (some (i, b'))) :
    ∀ j < i, b.bit j = false := by
  intro j hj
  unfold bitmapAlloc at h
  cases hix : (List.range b.nwords).find? fun ix => decide (b.map ix ≠ 0) with
  | none => rw [hix] at h; cases h
  | some ix =>
      rw [hix] at h
      dsimp only at h
      cases hoff : (List.range wordBits).find? fun offset =>
          decide (b.map ix &&& bitMask offset ≠ 0) with
      | none => rw [hoff] at h; cases h
      | some offset =>
          rw [hoff] at h
          cases h
          obtain ⟨-, -, hwords⟩ := List.find?_range_eq_some.1 hix
          obtain ⟨-, hmem, hbits⟩ := List.find?_range_eq_some.1 hoff
          have hlt : offset < wordBits := List.mem_range.1 hmem
          have hmod : j % wordBits < wordBits := Nat.mod_lt _ (by decide)
          by_cases hj' : j / wordBits = ix
          · -- an earlier bit of the same word
            have hbefore : j % wordBits < offset := by
              unfold wordBits at *
              omega
            have hclear := hbits _ hbefore
            rw [Bool.not_eq_true', decide_eq_false_iff_not,
              and_bitMask _ hmod, Bool.not_eq_true, ← hj'] at hclear
            exact hclear
          · -- an earlier word, which is zero
            have hbefore : j / wordBits < ix := by
              unfold wordBits at *
              omega
            have hzero := hwords _ hbefore
            rw [Bool.not_eq_true', decide_eq_false_iff_not, not_not] at hzero
            rw [Bitmap.bit, hzero]
            exact BitVec.getLsbD_zero

theorem Holds.bit_eq (h : Holds b s) (i : Nat) :
    b.bit i = decide (i ∈ s.free) := by
  rw [Bool.eq_iff_iff, decide_eq_true_eq]
  exact h.bits i

/-- The least free index is allocated. -/
theorem Holds.alloc (h : Holds b s) :
    Option.Rel (SameAnswer Holds) (bitmapCall b .alloc) (s.call .alloc) := by
  obtain ⟨r, halloc⟩ := bitmapAlloc_isSome b
  unfold bitmapCall FreeSet.call
  rw [halloc]
  rcases bitmapAlloc_spec halloc with ⟨rfl, hnone⟩ | ⟨i, b', rfl, hspec⟩
  · have hempty : ¬ s.free.Nonempty := by
      intro hne
      obtain ⟨j, hj⟩ := hne
      have hlt := Nat.lt_of_lt_of_le (s.below j hj) h.words
      have hclear := hnone j hlt
      rw [(h.bits j).2 hj] at hclear
      cases hclear
    rw [dif_neg hempty]
    exact .some ⟨rfl, h⟩
  · obtain ⟨hnbits, hnwords, -, hset, hbits⟩ := hspec
    have hmem : i ∈ s.free := (h.bits i).1 hset
    have hne : s.free.Nonempty := ⟨i, hmem⟩
    have hleast : i = s.free.min' hne := by
      apply Nat.le_antisymm
      · apply Nat.le_of_not_lt
        intro hlt
        have hclear := bitmapAlloc_least halloc _ hlt
        rw [(h.bits _).2 (s.free.min'_mem hne)] at hclear
        cases hclear
      · exact s.free.min'_le i hmem
    rw [dif_pos hne, ← hleast]
    refine .some ⟨rfl, hnbits.trans h.nbits_eq, ?_, fun j => ?_⟩
    · show nbits ≤ b'.nwords * wordBits
      rw [hnwords]
      exact h.words
    · show b'.bit j = true ↔ j ∈ s.free.erase i
      rw [hbits, h.bit_eq, Finset.mem_erase]
      simp

/-- A bit is set again. -/
theorem Holds.give (h : Holds b s) (i : Nat) :
    Option.Rel (SameAnswer Holds) (bitmapCall b (.free i))
      (s.call (.free i)) := by
  unfold bitmapCall FreeSet.call
  dsimp only
  by_cases hfree : i < nbits ∧ i ∉ s.free
  · have hclear : b.bit i = false := by
      rw [h.bit_eq]
      exact decide_eq_false hfree.2
    obtain ⟨b', hb'⟩ := bitmapFree_isSome (h.nbits_eq.symm ▸ hfree.1) hclear
    obtain ⟨hnbits, hnwords, -, -, hbits⟩ := bitmapFree_spec hb'
    rw [hb', dif_pos hfree]
    refine .some ⟨rfl, hnbits.trans h.nbits_eq, ?_, fun j => ?_⟩
    · show nbits ≤ b'.nwords * wordBits
      rw [hnwords]
      exact h.words
    · show b'.bit j = true ↔ j ∈ insert i s.free
      rw [hbits, h.bit_eq, Finset.mem_insert]
      simp
  · rw [dif_neg hfree]
    cases hb' : bitmapFree b i with
    | none => exact .none
    | some b' =>
        obtain ⟨-, -, hlt, hclear, -⟩ := bitmapFree_spec hb'
        rw [h.nbits_eq] at hlt
        rw [h.bit_eq, decide_eq_false_iff_not] at hclear
        exact absurd ⟨hlt, hclear⟩ hfree

/-- A test agrees with membership. -/
theorem Holds.test (h : Holds b s) (i : Nat) :
    Option.Rel (SameAnswer Holds) (bitmapCall b (.test i))
      (s.call (.test i)) := by
  unfold bitmapCall FreeSet.call
  dsimp only
  by_cases hlt : i < nbits
  · have htest : bitmapTest b i = some (decide (i ∈ s.free)) :=
      bitmapTest_eq_some.2 ⟨h.nbits_eq.symm ▸ hlt, h.bit_eq i⟩
    rw [htest, if_pos hlt]
    exact .some ⟨rfl, h⟩
  · rw [if_neg hlt]
    cases htest : bitmapTest b i with
    | none => exact .none
    | some v =>
        obtain ⟨hin, -⟩ := bitmapTest_eq_some.1 htest
        exact absurd (h.nbits_eq ▸ hin) hlt

theorem Holds.call (h : Holds b s) (c : BitmapCall) :
    Option.Rel (SameAnswer Holds) (bitmapCall b c) (s.call c) := by
  cases c with
  | alloc => exact h.alloc
  | free i => exact h.give i
  | test i => exact h.test i

/-- Whatever the calls, a new bitmap gives the answers of the set in which
every index is free, and its bits are the set that is left. -/
theorem bitmap_freeSet (hpos : nbits ≠ 0) :
    ∃ b, bitmapCreate nbits = some b ∧ ∀ calls : List BitmapCall,
      Option.Rel (SameAnswer Holds) (answers bitmapCall b calls)
        (answers FreeSet.call (FreeSet.full nbits) calls) := by
  obtain ⟨b, hcreate, hfull⟩ := bitmapCreate_holds hpos
  refine ⟨b, hcreate, fun calls => ?_⟩
  exact answers_rel (fun c h => h.call c) hfull calls

/-- A map of 33 bits, whose second word has one bit. -/
theorem bitmap_freeSet_partial :
    33 ≠ 0 ∧ ∃ b, bitmapCreate 33 = some b ∧ ∀ calls : List BitmapCall,
      Option.Rel (SameAnswer Holds) (answers bitmapCall b calls)
        (answers FreeSet.call (FreeSet.full 33) calls) :=
  ⟨by decide, bitmap_freeSet (by decide)⟩

end Ucore.Sfs
