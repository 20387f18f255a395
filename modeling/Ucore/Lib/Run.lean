/-
Labelled runs of a step relation, with the two rules every result about
runs uses: what each step preserves holds at the end of a run, and a
relation each step carries over to a second system carries runs over.
-/
import Mathlib.Logic.Basic

namespace Ucore

variable {σ τ ℓ : Type} {step : σ → ℓ → σ → Prop} {step' : τ → ℓ → τ → Prop}
  {s t u : σ} {l : ℓ} {ls : List ℓ}

/-- Steps one after the other, with their labels. -/
inductive Run (step : σ → ℓ → σ → Prop) : σ → List ℓ → σ → Prop
  | nil (s : σ) : Run step s [] s
  | cons {s t u : σ} {l : ℓ} {ls : List ℓ} :
      step s l t → Run step t ls u → Run step s (l :: ls) u

namespace Run

theorem single (h : step s l t) : Run step s [l] t :=
  .cons h (.nil t)

/-- A run that ends with a step. -/
theorem of_concat (hrun : Run step s (ls ++ [l]) u) :
    ∃ t, Run step s ls t ∧ step t l u := by
  induction ls generalizing s with
  | nil =>
      cases hrun with
      | cons hs hrest =>
          cases hrest
          exact ⟨s, .nil s, hs⟩
  | cons l' ls ih =>
      cases hrun with
      | cons hs hrest =>
          obtain ⟨t, hfirst, hlast⟩ := ih hrest
          exact ⟨t, .cons hs hfirst, hlast⟩

/-- Steps of one kind are steps of another. -/
theorem mono {step₁ : σ → ℓ → σ → Prop}
    (hstep : ∀ {s l t}, step s l t → step₁ s l t)
    (hrun : Run step s ls t) : Run step₁ s ls t := by
  induction hrun with
  | nil s => exact .nil s
  | cons hs _ ih => exact .cons (hstep hs) ih

/-- A property every step preserves is preserved by runs. -/
theorem invariant {I : σ → Prop}
    (hstep : ∀ {s l t}, I s → step s l t → I t)
    (hrun : Run step s ls t) (h : I s) : I t := by
  induction hrun with
  | nil s => exact h
  | cons hs _ ih => exact ih (hstep h hs)

/-- A relation that every step carries over to a step of the second system
with the same label carries runs over. -/
theorem simulates {R : σ → τ → Prop}
    (hstep : ∀ {s l t a}, R s a → step s l t → ∃ b, step' a l b ∧ R t b)
    (hrun : Run step s ls t) {a : τ} (h : R s a) :
    ∃ b, Run step' a ls b ∧ R t b := by
  induction hrun generalizing a with
  | nil s => exact ⟨a, .nil a, h⟩
  | cons hs _ ih =>
      obtain ⟨b, hb, hR⟩ := hstep h hs
      obtain ⟨c, hc, hR'⟩ := ih hR
      exact ⟨c, .cons hb hc, hR'⟩

end Run

end Ucore
