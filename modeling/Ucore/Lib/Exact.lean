/-
Resources with exactly one owner each.

`R x b` says that owner `x` refers to resource `b`; `held` are resources in
hand, which no owner refers to yet or any more. `Exact R held used` says
that the resources in use are those referred to or in hand, each once. The
rules follow a resource from its allocation into the hand, from there to an
owner, and back.
-/
import Mathlib.Data.Finset.Insert

namespace Ucore

variable {ι β : Type}

/-- Every resource in use is in hand or has exactly one owner. -/
structure Exact (R : ι → β → Prop) (held : Finset β) (used : β → Prop) :
    Prop where
  inj : ∀ {x y b}, R x b → R y b → x = y
  apart : ∀ {x b}, R x b → b ∉ held
  used_iff : ∀ {b}, used b ↔ (∃ x, R x b) ∨ b ∈ held

namespace Exact

variable {R R' : ι → β → Prop} {held held' : Finset β} {used used' : β → Prop}
  {b : β} {x : ι}

/-- With nothing in hand the resources in use are those referred to
once. -/
theorem unique_iff (h : Exact R ∅ used) : used b ↔ ∃! x, R x b := by
  constructor
  · intro hb
    rcases h.used_iff.mp hb with ⟨x, hx⟩ | hin
    · exact ⟨x, hx, fun y hy => h.inj hy hx⟩
    · cases hin
  · rintro ⟨x, hx, -⟩
    exact h.used_iff.mpr (Or.inl ⟨x, hx⟩)

/-- The same owners refer to the same resources. -/
theorem congr (h : Exact R held used) (hR : ∀ x b, R' x b ↔ R x b)
    (hused : ∀ b, used' b ↔ used b) : Exact R' held used' where
  inj hx hy := h.inj ((hR _ _).mp hx) ((hR _ _).mp hy)
  apart hx := h.apart ((hR _ _).mp hx)
  used_iff := by
    intro b
    rw [hused, h.used_iff]
    simp only [hR]

variable [DecidableEq β]

/-- An unused resource is taken in hand. -/
theorem take (h : Exact R held used) (hb : ¬ used b)
    (hused : ∀ c, used' c ↔ used c ∨ c = b) :
    Exact R (insert b held) used' where
  inj := h.inj
  apart := by
    intro x c hx hin
    rcases Finset.mem_insert.mp hin with rfl | hin
    · exact hb (h.used_iff.mpr (Or.inl ⟨x, hx⟩))
    · exact h.apart hx hin
  used_iff := by
    intro c
    rw [hused, h.used_iff, Finset.mem_insert]
    tauto

/-- A resource in hand is put back. -/
theorem give (h : Exact R (insert b held) used) (hb : b ∉ held)
    (hused : ∀ c, used' c ↔ used c ∧ c ≠ b) : Exact R held used' where
  inj := h.inj
  apart := fun hx hin => h.apart hx (Finset.mem_insert_of_mem hin)
  used_iff := by
    intro c
    rw [hused, h.used_iff, Finset.mem_insert]
    constructor
    · rintro ⟨hx | hc | hin, hne⟩
      · exact Or.inl hx
      · exact absurd hc hne
      · exact Or.inr hin
    · rintro (⟨x, hx⟩ | hin)
      · refine ⟨Or.inl ⟨x, hx⟩, ?_⟩
        rintro rfl
        exact h.apart hx (Finset.mem_insert_self _ _)
      · refine ⟨Or.inr (Or.inr hin), ?_⟩
        rintro rfl
        exact hb hin

/-- An owner takes over a resource in hand. -/
theorem install (h : Exact R (insert b held) used) (hb : b ∉ held)
    (hR : ∀ y c, R' y c ↔ R y c ∨ y = x ∧ c = b) : Exact R' held used where
  inj := by
    intro y z c hy hz
    rcases (hR y c).mp hy with hy | ⟨rfl, rfl⟩
    · rcases (hR z c).mp hz with hz | ⟨rfl, rfl⟩
      · exact h.inj hy hz
      · exact absurd (Finset.mem_insert_self _ _) (h.apart hy)
    · rcases (hR z c).mp hz with hz | ⟨rfl, -⟩
      · exact absurd (Finset.mem_insert_self _ _) (h.apart hz)
      · rfl
  apart := by
    intro y c hy hin
    rcases (hR y c).mp hy with hy | ⟨-, rfl⟩
    · exact h.apart hy (Finset.mem_insert_of_mem hin)
    · exact hb hin
  used_iff := by
    intro c
    rw [h.used_iff, Finset.mem_insert]
    constructor
    · rintro (⟨y, hy⟩ | rfl | hin)
      · exact Or.inl ⟨y, (hR y c).mpr (Or.inl hy)⟩
      · exact Or.inl ⟨x, (hR x c).mpr (Or.inr ⟨rfl, rfl⟩)⟩
      · exact Or.inr hin
    · rintro (⟨y, hy⟩ | hin)
      · rcases (hR y c).mp hy with hy | ⟨-, rfl⟩
        · exact Or.inl ⟨y, hy⟩
        · exact Or.inr (Or.inl rfl)
      · exact Or.inr (Or.inr hin)

/-- An owner gives its resource back into the hand. -/
theorem remove (h : Exact R held used) (hx : R x b)
    (hR : ∀ y c, R' y c ↔ R y c ∧ c ≠ b) : Exact R' (insert b held) used where
  inj hy hz := h.inj ((hR _ _).mp hy).1 ((hR _ _).mp hz).1
  apart := by
    intro y c hy hin
    obtain ⟨hy, hne⟩ := (hR y c).mp hy
    rcases Finset.mem_insert.mp hin with rfl | hin
    · exact hne rfl
    · exact h.apart hy hin
  used_iff := by
    intro c
    rw [h.used_iff, Finset.mem_insert]
    constructor
    · rintro (⟨y, hy⟩ | hin)
      · by_cases hc : c = b
        · exact Or.inr (Or.inl hc)
        · exact Or.inl ⟨y, (hR y c).mpr ⟨hy, hc⟩⟩
      · exact Or.inr (Or.inr hin)
    · rintro (⟨y, hy⟩ | rfl | hin)
      · exact Or.inl ⟨y, ((hR y c).mp hy).1⟩
      · exact Or.inl ⟨x, hx⟩
      · exact Or.inr hin

end Exact

end Ucore
