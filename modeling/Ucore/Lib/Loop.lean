/-
Loops as the rounds they are made of. A round either goes on from a new
state or ends the loop with a result. A loop whose rounds all make progress
ends; a round that goes on from the state it started in is repeated for
ever. Where every round is one or the other, the loop ends exactly when it
never comes to a round of the second kind (`ends_iff`).
-/
import Mathlib.Logic.Basic

namespace Ucore.Loop

/-- What a round of a loop comes to. -/
inductive Round (σ ρ : Type) where
  | again (s : σ)
  | stop (r : ρ)

variable {σ ρ : Type} {body : σ → Round σ ρ} {s t u : σ} {r : ρ}

/-- What follows a round. -/
def Round.next (rest : σ → Option ρ) : Round σ ρ → Option ρ
  | .again s => rest s
  | .stop r => some r

/-- The loop, given some number of rounds. -/
def run (body : σ → Round σ ρ) : (rounds : Nat) → σ → Option ρ
  | 0, _ => none
  | n + 1, s => (body s).next (run body n)

/-- The loop ends. -/
def Ends (body : σ → Round σ ρ) (s : σ) : Prop :=
  ∃ rounds r, run body rounds s = some r

/-- A round of the loop starts in `t`. -/
inductive Reaches (body : σ → Round σ ρ) : σ → σ → Prop
  | refl (s : σ) : Reaches body s s
  | step {s t u : σ} : body s = .again t → Reaches body t u →
      Reaches body s u

theorem run_stop (h : body s = .stop r) (n : Nat) :
    run body (n + 1) s = some r := by
  rw [run, h, Round.next]

theorem run_again (h : body s = .again t) (n : Nat) :
    run body (n + 1) s = run body n t := by
  rw [run, h, Round.next]

/-- More rounds make no difference. -/
theorem run_le {m n : Nat} (h : run body n s = some r) (hle : n ≤ m) :
    run body m s = some r := by
  induction n generalizing s m with
  | zero => cases h
  | succ n ih =>
      obtain ⟨m, rfl⟩ := Nat.exists_eq_add_of_le' hle
      cases hbody : body s with
      | stop r' =>
          rw [run_stop hbody] at h
          rw [Nat.add_succ, run_stop hbody, h]
      | again t =>
          rw [run_again hbody] at h
          rw [Nat.add_succ, run_again hbody]
          exact ih h (Nat.le_add_left n m)

/-- The rounds after some that go on. -/
theorem run_from {states : Nat → σ} {k : Nat}
    (h : ∀ i < k, body (states i) = .again (states (i + 1))) (n : Nat) :
    run body (k + n) (states 0) = run body n (states k) := by
  induction k generalizing n with
  | zero => rw [Nat.zero_add]
  | succ k ih =>
      have hsum : k + 1 + n = k + (n + 1) := by omega
      rw [hsum, ih fun i hi => h i (Nat.lt_succ_of_lt hi)]
      exact run_again (h k (Nat.lt_succ_self k)) n

/-- The loop ends where its next round does, or where the rest of it
does. -/
theorem Ends.stop (h : body s = .stop r) : Ends body s :=
  ⟨1, r, run_stop h 0⟩

theorem Ends.again (h : body s = .again t) (ht : Ends body t) :
    Ends body s := by
  obtain ⟨n, r, hrun⟩ := ht
  exact ⟨n + 1, r, (run_again h n).trans hrun⟩

/-- The rest of a loop that ends does. -/
theorem Ends.of_reaches (h : Reaches body s t) (hs : Ends body s) :
    Ends body t := by
  induction h with
  | refl s => exact hs
  | step hstep _ ih =>
      apply ih
      obtain ⟨n, r, hrun⟩ := hs
      cases n with
      | zero => cases hrun
      | succ n => exact ⟨n, r, (run_again hstep n).symm.trans hrun⟩

theorem Reaches.tail (h : Reaches body s t) (hstep : body t = .again u) :
    Reaches body s u := by
  induction h with
  | refl s => exact .step hstep (.refl u)
  | step hfirst _ ih => exact .step hfirst (ih hstep)

theorem Reaches.trans (h : Reaches body s t) (h' : Reaches body t u) :
    Reaches body s u := by
  induction h with
  | refl s => exact h'
  | step hfirst _ ih => exact .step hfirst (ih h')

/-- The loop ends with what a round it comes to ends with. -/
theorem Reaches.returns (h : Reaches body s t) (hstop : body t = .stop r) :
    ∃ n, run body n s = some r := by
  induction h with
  | refl s => exact ⟨1, run_stop hstop 0⟩
  | step hfirst _ ih =>
      obtain ⟨n, hrun⟩ := ih hstop
      exact ⟨n + 1, (run_again hfirst n).trans hrun⟩

/-- A property that rounds keep holds in the states that are reached. -/
theorem Reaches.invariant {I : σ → Prop}
    (hstep : ∀ {s t}, I s → body s = .again t → I t)
    (h : Reaches body s t) (hs : I s) : I t := by
  induction h with
  | refl s => exact hs
  | step hfirst _ ih => exact ih (hstep hs hfirst)

/-- A round that changes nothing is repeated for ever. -/
theorem not_ends_of_stuck (h : body s = .again s) : ¬ Ends body s := by
  intro hends
  obtain ⟨n, r, hrun⟩ := hends
  induction n with
  | zero => cases hrun
  | succ n ih =>
      rw [run_again h] at hrun
      exact ih hrun

/-- A loop ends if every round it comes to decreases a measure. -/
theorem ends_of_measure (μ : σ → Nat)
    (hless : ∀ {t u}, Reaches body s t → body t = .again u → μ u < μ t) :
    Ends body s := by
  generalize hn : μ s = n
  induction n using Nat.strongRecOn generalizing s with
  | ind n ih =>
      cases hbody : body s with
      | stop r => exact .stop hbody
      | again t =>
          have hlt := hless (.refl s) hbody
          apply Ends.again hbody
          apply ih (μ t) (hn ▸ hlt) _ rfl
          intro u v hreach hstep
          exact hless (.step hbody hreach) hstep

/-- A loop whose rounds keep an invariant, decrease a measure, and stop with
a good result only, comes to one. -/
theorem returns_of_measure {I : σ → Prop} {Q : ρ → Prop} (μ : σ → Nat)
    (hbody : ∀ s, I s → (∃ t, body s = .again t ∧ I t ∧ μ t < μ s)
      ∨ ∃ r, body s = .stop r ∧ Q r) (h : I s) :
    ∃ n r, run body n s = some r ∧ Q r := by
  generalize hm : μ s = m
  induction m using Nat.strongRecOn generalizing s with
  | ind m ih =>
      obtain ⟨t, hagain, ht, hlt⟩ | ⟨r, hstop, hr⟩ := hbody s h
      · obtain ⟨n, r, hrun, hr⟩ := ih (μ t) (hm ▸ hlt) ht rfl
        exact ⟨n + 1, r, (run_again hagain n).trans hrun, hr⟩
      · exact ⟨1, r, run_stop hstop 0, hr⟩

/-- A loop whose rounds either decrease a measure or change nothing ends
exactly when it comes to no round of the second kind. -/
theorem ends_iff (μ : σ → Nat) (stuck : σ → Prop)
    (hstuck : ∀ {t}, Reaches body s t → stuck t → body t = .again t)
    (hless : ∀ {t u}, Reaches body s t → ¬ stuck t → body t = .again u →
      μ u < μ t) :
    Ends body s ↔ ∀ t, Reaches body s t → ¬ stuck t := by
  constructor
  · intro hends t hreach ht
    exact not_ends_of_stuck (hstuck hreach ht) (hends.of_reaches hreach)
  · intro hnone
    apply ends_of_measure μ
    intro t u hreach hstep
    exact hless hreach (hnone t hreach) hstep

/-- What a loop ends with, a round it comes to does. -/
theorem reaches_of_run {n : Nat} (h : run body n s = some r) :
    ∃ t, Reaches body s t ∧ body t = .stop r := by
  induction n generalizing s with
  | zero => cases h
  | succ n ih =>
      cases hbody : body s with
      | stop r' =>
          rw [run_stop hbody] at h
          cases h
          exact ⟨s, .refl s, hbody⟩
      | again t =>
          rw [run_again hbody] at h
          obtain ⟨u, hreach, hstop⟩ := ih h
          exact ⟨u, .step hbody hreach, hstop⟩

/-- It comes to one such round only. -/
theorem Reaches.stop_unique {t' : σ} {r' : ρ} (h : Reaches body s t)
    (hstop : body t = .stop r) (h' : Reaches body s t')
    (hstop' : body t' = .stop r') : r = r' := by
  induction h with
  | refl s =>
      cases h' with
      | refl _ =>
          rw [hstop] at hstop'
          cases hstop'
          rfl
      | step hbody _ =>
          rw [hstop] at hbody
          cases hbody
  | step hbody _ ih =>
      cases h' with
      | refl _ =>
          rw [hstop'] at hbody
          cases hbody
      | step hbody' hrest =>
          rw [hbody] at hbody'
          cases hbody'
          exact ih hstop hrest

end Ucore.Loop
