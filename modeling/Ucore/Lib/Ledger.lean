/-
Counts that calls move. `Moves count m d` says by how much: where `m` returns
`a`, the count of the state has moved by `d a`. The rules go over a sequence
call by call, and what is left of an amount is owed by the rest.
-/
import Ucore.Lib.Call
import Mathlib.Algebra.Group.Basic

namespace Ucore.Call

variable {σ τ α β G : Type} [AddCommGroup G] {count : σ → G} {d e : α → G}

/-- Where the call returns `a`, the count moves by `d a`. -/
def Moves (count : σ → G) (m : Call σ α) (d : α → G) : Prop :=
  ∀ s a t, m s = some (a, t) → count t = count s + d a

/-- The count stays. -/
def Keeps (count : σ → G) (m : Call σ α) : Prop := Moves count m fun _ => 0

namespace Moves

theorem congr {m : Call σ α} (h : Moves count m d) (hd : ∀ a, e a = d a) :
    Moves count m e := by
  intro s a t hrun
  rw [hd]
  exact h s a t hrun

/-- A sequence: the rest moves what the first call has not. -/
theorem bind {m : Call σ α} {f : α → Call σ β} {d' : β → G}
    (h : Moves count m d) (hf : ∀ a, Moves count (f a) fun b => d' b - d a) :
    Moves count (m >>= f) d' := by
  intro s b u hrun
  obtain ⟨a, t, hm, hrest⟩ := bind_eq_some.1 hrun
  rw [hf a t b u hrest, h s a t hm, add_assoc, add_sub_cancel]

theorem pure {a : α} (h : d a = 0) : Moves count (Pure.pure a) d := by
  intro s a' t hrun
  obtain ⟨rfl, rfl⟩ := pure_eq_some.1 hrun
  rw [h, add_zero]

theorem panic : Moves count (Call.panic : Call σ α) d :=
  fun _ _ _ hrun => absurd hrun panic_ne_some

theorem modify {f : σ → σ} {d : Unit → G}
    (h : ∀ s, count (f s) = count s + d ()) : Moves count (modify f) d := by
  intro s a t hrun
  obtain rfl := modify_eq_some.1 hrun
  exact h s

/-- One of two calls. -/
theorem ite {p : Prop} [Decidable p] {m m' : Call σ α}
    (h : Moves count m d) (h' : Moves count m' d) :
    Moves count (if p then m else m') d := by
  split
  case isTrue => exact h
  case isFalse => exact h'

end Moves

namespace Keeps

/-- After a call that keeps the count. -/
theorem bind {m : Call σ α} {f : α → Call σ β} {d : β → G}
    (h : Keeps count m) (hf : ∀ a, Moves count (f a) d) :
    Moves count (m >>= f) d :=
  Moves.bind h fun a => (hf a).congr fun _ => sub_zero _

theorem pure {a : α} : Keeps count (Pure.pure a) := Moves.pure rfl

theorem get : Keeps count (Call.get : Call σ σ) := by
  intro s a t hrun
  obtain ⟨-, rfl⟩ := get_eq_some.1 hrun
  exact (add_zero _).symm

theorem assert {p : Prop} [Decidable p] :
    Keeps count (Call.assert p : Call σ Unit) := by
  intro s a t hrun
  obtain ⟨-, rfl⟩ := assert_eq_some.1 hrun
  exact (add_zero _).symm

theorem ofOption {o : Option α} : Keeps count (Call.ofOption o) := by
  intro s a t hrun
  obtain ⟨-, rfl⟩ := ofOption_eq_some.1 hrun
  exact (add_zero _).symm

theorem eq {m : Call σ α} {s t : σ} {a : α} (h : Keeps count m)
    (hrun : m s = some (a, t)) : count t = count s :=
  (h s a t hrun).trans (add_zero _)

theorem of_eq {m : Call σ α}
    (h : ∀ s a t, m s = some (a, t) → count t = count s) :
    Keeps count m :=
  fun s a t hrun => (h s a t hrun).trans (add_zero _).symm

end Keeps

end Ucore.Call
