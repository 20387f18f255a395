/-
How often a partial map takes a value on a finite set of indices, and how
that number moves when the map changes at one index; how many numbers of an
interval have a property.
-/
import Mathlib.Data.Finset.Card
import Mathlib.Data.Finset.Basic
import Mathlib.Order.Interval.Finset.Nat

namespace Ucore

variable {ι α : Type} [DecidableEq α]

/-- The number of indices in `S` at which `f` is `a`. -/
def occurs (S : Finset ι) (f : ι → Option α) (a : α) : Nat :=
  (S.filter fun i => f i = some a).card

namespace Occurs

variable {S : Finset ι} {f g : ι → Option α} {a : α} {i : ι}

/-- Maps that agree on `S` take each value equally often. -/
theorem congr (h : ∀ j ∈ S, g j = f j) : occurs S g a = occurs S f a := by
  have hfilter : (S.filter fun j => g j = some a)
      = S.filter fun j => f j = some a := by
    apply Finset.filter_congr
    intro j hj
    rw [h j hj]
  rw [occurs, occurs, hfilter]

/-- Indices that do not hold the value do not count. -/
theorem subset {T : Finset ι} (hsub : S ⊆ T) (h : ∀ j ∈ S, g j = f j)
    (hout : ∀ j ∈ T, j ∉ S → g j ≠ some a) :
    occurs T g a = occurs S f a := by
  have hfilter : (T.filter fun j => g j = some a)
      = S.filter fun j => f j = some a := by
    ext j
    simp only [Finset.mem_filter]
    constructor
    · rintro ⟨hj, hg⟩
      have hS : j ∈ S := by
        by_contra hS
        exact hout j hj hS hg
      exact ⟨hS, by rw [← h j hS, hg]⟩
    · rintro ⟨hj, hf⟩
      exact ⟨hsub hj, by rw [h j hj, hf]⟩
  rw [occurs, occurs, hfilter]

/-- A value is taken at least once exactly if some index holds it. -/
theorem pos_iff : 0 < occurs S f a ↔ ∃ j ∈ S, f j = some a := by
  rw [occurs, Finset.card_pos]
  constructor
  · rintro ⟨j, hj⟩
    exact ⟨j, (Finset.mem_filter.mp hj).1, (Finset.mem_filter.mp hj).2⟩
  · rintro ⟨j, hj, hf⟩
    exact ⟨j, Finset.mem_filter.mpr ⟨hj, hf⟩⟩

variable [DecidableEq ι]

/-- Splitting off one index: what the others contribute, plus its own
share. -/
theorem erase (hi : i ∈ S) :
    occurs S f a = occurs (S.erase i) f a + if f i = some a then 1 else 0 := by
  conv_lhs => rw [← Finset.insert_erase hi, occurs, Finset.filter_insert]
  by_cases hf : f i = some a
  · rw [if_pos hf, if_pos hf, Finset.card_insert_of_notMem (by simp), occurs]
  · rw [if_neg hf, if_neg hf, occurs, Nat.add_zero]

/-- Changing the map at one index moves only that index's share. -/
theorem change (hi : i ∈ S) (h : ∀ j ∈ S, j ≠ i → g j = f j) :
    occurs S g a + (if f i = some a then 1 else 0)
      = occurs S f a + if g i = some a then 1 else 0 := by
  have hrest : occurs (S.erase i) g a = occurs (S.erase i) f a := by
    apply congr
    intro j hj
    exact h j (Finset.mem_of_mem_erase hj) (Finset.ne_of_mem_erase hj)
  rw [erase (f := g) hi, erase (f := f) hi, hrest]
  omega

/-- A value taken at one index and at no other is taken once. -/
theorem eq_one_iff (hi : i ∈ S) (hf : f i = some a) :
    occurs S f a = 1 ↔ ∀ j ∈ S, f j = some a → j = i := by
  rw [erase hi, if_pos hf]
  constructor
  · intro h j hj hfj
    by_contra hne
    have hpos : 0 < occurs (S.erase i) f a :=
      pos_iff.mpr ⟨j, Finset.mem_erase.mpr ⟨hne, hj⟩, hfj⟩
    omega
  · intro h
    have hzero : ¬ 0 < occurs (S.erase i) f a := by
      intro hpos
      obtain ⟨j, hj, hfj⟩ := pos_iff.mp hpos
      exact Finset.ne_of_mem_erase hj
        (h j (Finset.mem_of_mem_erase hj) hfj)
    omega

end Occurs

-- ============================================== counting an interval

/-- How many numbers from `a` up to `b` have the property. -/
def between (P : Nat → Prop) [DecidablePred P] (a b : Nat) : Nat :=
  ((Finset.Ico a b).filter P).card

namespace Between

variable {P Q : Nat → Prop} [DecidablePred P] [DecidablePred Q] {a b c : Nat}

theorem empty : between P a a = 0 := by
  rw [between, Finset.Ico_self, Finset.filter_empty, Finset.card_empty]

theorem congr (h : ∀ n, a ≤ n → n < b → (P n ↔ Q n)) :
    between P a b = between Q a b := by
  have hfilter : (Finset.Ico a b).filter P = (Finset.Ico a b).filter Q := by
    apply Finset.filter_congr
    intro n hn
    rw [Finset.mem_Ico] at hn
    exact h n hn.1 hn.2
  rw [between, between, hfilter]

theorem split (hab : a ≤ b) (hbc : b ≤ c) :
    between P a c = between P a b + between P b c := by
  have hdisj : Disjoint ((Finset.Ico a b).filter P)
      ((Finset.Ico b c).filter P) :=
    Finset.disjoint_filter_filter (Finset.Ico_disjoint_Ico_consecutive a b c)
  rw [between, between, between, ← Finset.card_union_of_disjoint hdisj,
    ← Finset.filter_union, Finset.Ico_union_Ico_eq_Ico hab hbc]

theorem one : between P a (a + 1) = if P a then 1 else 0 := by
  rw [between, Nat.Ico_succ_singleton, Finset.filter_singleton]
  by_cases ha : P a
  · rw [if_pos ha, if_pos ha, Finset.card_singleton]
  · rw [if_neg ha, if_neg ha, Finset.card_empty]

theorem eq_zero_iff : between P a b = 0 ↔ ∀ n, a ≤ n → n < b → ¬ P n := by
  rw [between, Finset.card_eq_zero, Finset.filter_eq_empty_iff]
  constructor
  · intro h n hlo hhi
    exact h (Finset.mem_Ico.2 ⟨hlo, hhi⟩)
  · intro h n hn
    rw [Finset.mem_Ico] at hn
    exact h n hn.1 hn.2

end Between

end Ucore
