/-
Strings in memory: what `strchr` and `strcmp` find, and the part of a string
that a NUL cuts off.
-/
import Ucore.Libs.String
import Mathlib.Data.List.GetD

namespace Ucore

variable {mem : Nat → UInt8} {s line : List UInt8} {c : UInt8} {i j k p : Nat}

theorem strchr_eq_none : strchr s c = none ↔ c ∉ s := by
  induction s with
  | nil => exact ⟨fun _ => List.not_mem_nil, fun _ => rfl⟩
  | cons a s ih =>
      rw [strchr, List.mem_cons, not_or]
      split
      case isTrue heq =>
          exact ⟨(fun h => by cases h), fun hnot => absurd heq.symm hnot.1⟩
      case isFalse hne => exact ih.trans ⟨fun h => ⟨Ne.symm hne, h⟩, fun h => h.2⟩

theorem StringAt.ne_nul (h : StringAt mem p s) (hi : i < s.length) :
    s.getD i 0 ≠ 0 := by
  rw [List.getD_eq_getElem s 0 hi]
  intro hzero
  exact h.nul (hzero ▸ List.getElem_mem hi)

theorem StringAt.read_eq_zero (h : StringAt mem p s) (hi : i ≤ s.length) :
    mem (p + i) = 0 ↔ i = s.length := by
  rw [h.reads i hi]
  constructor
  · intro hzero
    exact Nat.le_antisymm hi (Nat.le_of_not_lt fun hlt => h.ne_nul hlt hzero)
  · intro heq
    rw [heq, List.getD_eq_default s 0 (Nat.le_refl s.length)]

theorem StringAt.head_tail (h : StringAt mem p (c :: s)) :
    c = mem p ∧ StringAt mem (p + 1) s := by
  refine ⟨(h.reads 0 (Nat.zero_le _)).symm,
    fun hmem => h.nul (List.mem_cons_of_mem c hmem), fun i hi => ?_⟩
  rw [Nat.add_assoc, Nat.add_comm 1 i]
  exact h.reads (i + 1) (Nat.succ_le_succ hi)

theorem StringAt.cons (hc : c ≠ 0) (hp : c = mem p) (h : StringAt mem (p + 1) s) :
    StringAt mem p (c :: s) := by
  refine ⟨fun hmem => ?_, fun i hi => ?_⟩
  · rcases List.mem_cons.mp hmem with hzero | hin
    · exact hc hzero.symm
    · exact h.nul hin
  · cases i with
    | zero => exact hp.symm
    | succ i =>
        rw [Nat.add_comm i 1, ← Nat.add_assoc, Nat.add_comm 1 i]
        exact h.reads i (Nat.le_of_succ_le_succ hi)

theorem StringAt.unique {s' : List UInt8} (h : StringAt mem p s)
    (h' : StringAt mem p s') : s = s' := by
  induction s generalizing p s' with
  | nil =>
      cases s' with
      | nil => rfl
      | cons c s' =>
          have hzero : 0 = c :=
            (h.reads 0 (Nat.zero_le _)).symm.trans (h'.reads 0 (Nat.zero_le _))
          exact absurd (hzero ▸ List.mem_cons_self) h'.nul
  | cons c s ih =>
      cases s' with
      | nil =>
          have hzero : 0 = c :=
            (h'.reads 0 (Nat.zero_le _)).symm.trans (h.reads 0 (Nat.zero_le _))
          exact absurd (hzero ▸ List.mem_cons_self) h.nul
      | cons c' s' =>
          rw [h.head_tail.1, h'.head_tail.1, ih h.head_tail.2 h'.head_tail.2]

/-- `strcmp` is 0 exactly on equal strings. -/
theorem strcmp_eq_zero (hnul : (0 : UInt8) ∉ s) :
    strcmp mem s p = 0 ↔ StringAt mem p s := by
  induction s generalizing p with
  | nil =>
      constructor
      · intro h
        refine ⟨hnul, fun i hi => ?_⟩
        obtain rfl := Nat.le_zero.mp hi
        apply UInt8.toNat_inj.mp
        have hzero : -((mem p).toNat : Int) = 0 := h
        show (mem p).toNat = 0
        omega
      · intro h
        have hzero : mem p = 0 := h.reads 0 (Nat.le_refl 0)
        show -((mem p).toNat : Int) = 0
        rw [hzero]
        rfl
  | cons c s ih =>
      have hc : c ≠ 0 := fun hzero => hnul (hzero ▸ List.mem_cons_self)
      rw [strcmp]
      split
      case isTrue heq =>
        rw [ih fun hmem => hnul (List.mem_cons_of_mem c hmem)]
        exact ⟨.cons hc heq, fun h => h.head_tail.2⟩
      case isFalse hne =>
        constructor
        · intro h
          exact absurd (UInt8.toNat_inj.mp (by omega)) hne
        · intro h
          exact absurd h.head_tail.1 hne

/-- A string at address 0. -/
def memoryOf (s : List UInt8) (k : Nat) : UInt8 := s.getD k 0

theorem stringAt_memoryOf (h : (0 : UInt8) ∉ s) : StringAt (memoryOf s) 0 s := by
  refine ⟨h, fun i _ => ?_⟩
  rw [Nat.zero_add]
  rfl

theorem length_extract (hj : j ≤ line.length) : (line.extract i j).length = j - i := by
  rw [List.extract_eq_take_drop, List.length_take, List.length_drop]
  omega

theorem mem_of_mem_extract (h : c ∈ line.extract i j) : c ∈ line := by
  rw [List.extract_eq_take_drop] at h
  exact List.mem_of_mem_drop (List.mem_of_mem_take h)

theorem getD_extract (hj : j ≤ line.length) (hk : k < j - i) :
    (line.extract i j).getD k 0 = line.getD (i + k) 0 := by
  have hlen := length_extract (i := i) hj
  rw [List.getD_eq_getElem _ _ (by omega), List.getD_eq_getElem _ _ (by omega)]
  simp only [List.extract_eq_take_drop, List.getElem_take, List.getElem_drop]

end Ucore
