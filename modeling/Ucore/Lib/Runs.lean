/-
Runs of positions that have a property, as a scan from the left meets them,
and a buffer that the scan rewrites on its way.

A scan that has come to `x` knows the positions before `x` at which something
starts (`positions`), and has rewritten the bytes before `x` (`rewritten`).
Both grow by one position at a time. A run is maximal: it starts where none
goes on, and ends where the property does.
-/
import Mathlib.Data.List.Range
import Mathlib.Data.Nat.Find
import Mathlib.Logic.Function.Basic
import Mathlib.Order.Defs.LinearOrder

namespace Ucore.Runs

-- ========================================================= positions

section Positions

variable {P Q : Nat → Prop} [DecidablePred Q] {i j n x : Nat}

/-- The positions below `n` that have a property, in order. -/
def positions (Q : Nat → Prop) [DecidablePred Q] (n : Nat) : List Nat :=
  (List.range n).filter fun i => Q i

theorem positions_succ (h : Q x) : positions Q (x + 1) = positions Q x ++ [x] := by
  rw [positions, List.range_succ, List.filter_append]
  exact congrArg _ (List.filter_cons_of_pos (decide_eq_true h))

theorem positions_skip (h : ¬ Q x) : positions Q (x + 1) = positions Q x := by
  rw [positions, List.range_succ, List.filter_append,
    List.filter_cons_of_neg (by simpa using h), List.filter_nil, List.append_nil]
  rfl

theorem mem_positions : i ∈ positions Q n ↔ i < n ∧ Q i := by
  rw [positions, List.mem_filter, List.mem_range, decide_eq_true_eq]

/-- Going on, a scan meets more of them. -/
theorem positions_length_le (h : x ≤ n) :
    (positions Q x).length ≤ (positions Q n).length := by
  apply List.Sublist.length_le
  exact (List.range_sublist.mpr h).filter _

/-- Of the positions from `i` on only the first has the property. -/
theorem positions_first (h : Q i) (hlt : i < x) (hrest : ∀ k, i < k → k < x → ¬ Q k) :
    positions Q x = positions Q i ++ [i] := by
  induction x with
  | zero => cases hlt
  | succ x ih =>
      rcases Nat.lt_or_eq_of_le (Nat.le_of_lt_succ hlt) with hin | rfl
      · rw [positions_skip (hrest x hin (Nat.lt_succ_self x))]
        exact ih hin fun k hk hkx => hrest k hk (Nat.lt_succ_of_lt hkx)
      · exact positions_succ h

-- ============================================================== runs

/-- A run starts. -/
def Starts (P : Nat → Prop) (i : Nat) : Prop := P i ∧ (i = 0 ∨ ¬ P (i - 1))

instance [DecidablePred P] : DecidablePred (Starts P) := fun i =>
  inferInstanceAs (Decidable (P i ∧ (i = 0 ∨ ¬ P (i - 1))))

theorem Starts.not_succ (h : P x) : ¬ Starts P (x + 1) := by
  intro hstarts
  rcases hstarts.2 with hzero | hnot
  · cases hzero
  · exact hnot h

/-- After a position that is in none, a run can start. -/
theorem starts_succ (h : ¬ P x) (h' : P (x + 1)) : Starts P (x + 1) :=
  ⟨h', .inr h⟩

/-- Every position is in a run that has started. -/
theorem exists_starts (h : P x) :
    ∃ i, i ≤ x ∧ Starts P i ∧ ∀ k, i ≤ k → k ≤ x → P k := by
  induction x with
  | zero =>
      refine ⟨0, Nat.le_refl 0, ⟨h, .inl rfl⟩, fun k _ hk => ?_⟩
      obtain rfl := Nat.le_zero.mp hk
      exact h
  | succ x ih =>
      by_cases hx : P x
      · obtain ⟨i, hi, hstarts, hwithin⟩ := ih hx
        refine ⟨i, Nat.le_succ_of_le hi, hstarts, fun k hik hk => ?_⟩
        rcases Nat.lt_or_eq_of_le hk with hlt | rfl
        · exact hwithin k hik (Nat.le_of_lt_succ hlt)
        · exact h
      · refine ⟨x + 1, Nat.le_refl _, starts_succ hx h, fun k hik hk => ?_⟩
        obtain rfl := Nat.le_antisymm hk hik
        exact h

/-- `j` is where the run ends that starts at `i`. -/
structure MaxRun (P : Nat → Prop) (i j : Nat) : Prop where
  starts : Starts P i
  lt : i < j
  within : ∀ k, i ≤ k → k < j → P k
  ends : ¬ P j

theorem MaxRun.unique {j' : Nat} (h : MaxRun P i j) (h' : MaxRun P i j') : j = j' := by
  rcases Nat.lt_trichotomy j j' with hlt | heq | hgt
  · exact absurd (h'.within j (Nat.le_of_lt h.lt) hlt) h.ends
  · exact heq
  · exact absurd (h.within j' (Nat.le_of_lt h'.lt) hgt) h'.ends

/-- Every run ends, if the property does. -/
theorem exists_run (h : Starts P i) (hend : ∀ k, n ≤ k → ¬ P k) :
    ∃ j, MaxRun P i j ∧ j ≤ n := by
  classical
  have hsome : ∃ d, ¬ P (i + d) := ⟨n, hend _ (Nat.le_add_left n i)⟩
  have hin : i < n := by
    by_contra hnot
    exact hend i (Nat.le_of_not_lt hnot) h.1
  have hwithin : ∀ d < Nat.find hsome, P (i + d) := fun d hd =>
    Decidable.not_not.mp (Nat.find_min hsome hd)
  refine ⟨i + Nat.find hsome, ⟨h, ?_, ?_, Nat.find_spec hsome⟩, ?_⟩
  · have hpos : Nat.find hsome ≠ 0 := fun hzero =>
      Nat.find_spec hsome (by rw [hzero]; exact h.1)
    omega
  · intro k hk hlt
    have hpos := hwithin (k - i) (by omega)
    rwa [Nat.add_sub_cancel' hk] at hpos
  · have hle := Nat.find_min' hsome (m := n - i)
      (by rw [Nat.add_sub_cancel' (Nat.le_of_lt hin)]; exact hend n (Nat.le_refl n))
    omega

end Positions

-- ======================================================= a rewriting

section Rewriting

variable {β : Type} {mem : Nat → β} {a x : Nat} {f : Nat → β}

/-- A buffer at `a`, rewritten up to its position `x`. -/
def rewritten (mem : Nat → β) (a : Nat) (f : Nat → β) (x : Nat) : Nat → β :=
  fun k => if a ≤ k ∧ k < a + x then f (k - a) else mem k

theorem rewritten_zero (mem : Nat → β) (a : Nat) (f : Nat → β) :
    rewritten mem a f 0 = mem := by
  funext k
  exact if_neg (by omega)

/-- What the scan has not come to is as it was. -/
theorem rewritten_ahead {i : Nat} (h : x ≤ i) :
    rewritten mem a f x (a + i) = mem (a + i) :=
  if_neg (by omega)

theorem rewritten_behind {i : Nat} (h : i < x) :
    rewritten mem a f x (a + i) = f i := by
  rw [rewritten, if_pos (by omega), Nat.add_sub_cancel_left]

theorem rewritten_store :
    Function.update (rewritten mem a f x) (a + x) (f x)
      = rewritten mem a f (x + 1) := by
  funext k
  rcases eq_or_ne k (a + x) with rfl | hne
  · rw [Function.update_self, rewritten_behind (Nat.lt_succ_self x)]
  · rw [Function.update_of_ne hne, rewritten, rewritten]
    by_cases hin : a ≤ k ∧ k < a + x
    · rw [if_pos hin, if_pos (by omega)]
    · rw [if_neg hin, if_neg (by omega)]

/-- A byte that is to stay is passed over. -/
theorem rewritten_pass (h : f x = mem (a + x)) :
    rewritten mem a f x = rewritten mem a f (x + 1) := by
  have hstay : rewritten mem a f x (a + x) = mem (a + x) :=
    rewritten_ahead (Nat.le_refl x)
  rw [← rewritten_store, h, ← hstay, Function.update_eq_self]

end Rewriting

end Ucore.Runs
