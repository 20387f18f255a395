/-
Calls of code that reads and writes a state and may panic. A proof about a
call takes it apart with the lemmas here: from what a sequence of calls
returned, what each of them returned and in which state.

Calls that relate the state before to the state after. For a relation that is
reflexive and transitive the rules go over a sequence call by call; with
`fun s t => I s → I t` they are the rules for an invariant.

Calls that return. What a call does when it returns is one lemma, that it
returns is another; a sequence is taken apart here with what its first call
did in hand, so that the first kind of lemma serves the second.

Calls side by side: a call on one state does what a call on another does. The
rules take both apart at the same places.
-/
import Mathlib.Logic.Basic
import Mathlib.Order.Defs.Unbundled

namespace Ucore

/-- A call: from a state, the value it returns and the state it leaves;
`none` is a panic. -/
def Call (σ α : Type) : Type := σ → Option (α × σ)

namespace Call

variable {σ α β : Type} {s t : σ} {a : α} {b : β}

instance : Monad (Call σ) where
  pure a := fun s => some (a, s)
  bind m f := fun s =>
    match m s with
    | none => none
    | some (a, s) => f a s

/-- The state. -/
def get : Call σ σ := fun s => some (s, s)

/-- A change of the state. -/
def modify (f : σ → σ) : Call σ Unit := fun s => some ((), f s)

/-- A panic. -/
def panic : Call σ α := fun _ => none

/-- `assert`. -/
def assert (p : Prop) [Decidable p] : Call σ Unit :=
  if p then pure () else panic

/-- A value that may be missing. -/
def ofOption : Option α → Call σ α
  | some a => pure a
  | none => panic

@[simp] theorem pure_eq_some {a' : α} :
    (pure a : Call σ α) s = some (a', t) ↔ a' = a ∧ t = s := by
  show some (a, s) = some (a', t) ↔ _
  rw [Option.some.injEq, Prod.mk.injEq]
  exact ⟨fun h => ⟨h.1.symm, h.2.symm⟩, fun h => ⟨h.1.symm, h.2.symm⟩⟩

/-- A sequence returned, so its first call did, and the rest from there. -/
@[simp] theorem bind_eq_some {m : Call σ α} {f : α → Call σ β} :
    (m >>= f) s = some (b, t)
      ↔ ∃ a u, m s = some (a, u) ∧ f a u = some (b, t) := by
  show (match m s with | none => none | some (a, s) => f a s) = _ ↔ _
  cases hm : m s with
  | none =>
      constructor
      · intro h
        cases h
      · rintro ⟨a, u, h, -⟩
        cases h
  | some r =>
      obtain ⟨a, u⟩ := r
      constructor
      · exact fun h => ⟨a, u, rfl, h⟩
      · rintro ⟨a', u', h, h'⟩
        cases h
        exact h'

/-- The rest of a sequence runs from where its first call returned. -/
theorem bind_of_eq {m : Call σ α} (f : α → Call σ β) (h : m s = some (a, t)) :
    (m >>= f) s = f a t := by
  show (match m s with | none => none | some (a, s) => f a s) = _
  rw [h]

/-- The rest of a sequence may be written differently. -/
theorem bind_rest {m : Call σ α} {f f' : α → Call σ β} {r : Option (β × σ)}
    (hrun : (m >>= f) s = r) (h : ∀ a, f' a = f a) : (m >>= f') s = r := by
  rw [funext h]
  exact hrun

/-- Two sequences with the same first call, where the rest of one returns what
the rest of the other does, with the value changed. -/
theorem bind_map {γ : Type} {m : Call σ α} {f : α → Call σ β}
    {f' : α → Call σ γ} {g : β → γ}
    (h : ∀ a t, f' a t = (f a t).map fun r => (g r.1, r.2)) :
    (m >>= f') s = ((m >>= f) s).map fun r => (g r.1, r.2) := by
  show (match m s with | none => none | some (a, t) => f' a t)
    = (match m s with | none => none | some (a, t) => f a t).map _
  cases m s with
  | none => rfl
  | some r => exact h r.1 r.2

/-- A sequence whose first call panics panics. -/
theorem bind_of_none {m : Call σ α} (f : α → Call σ β) (h : m s = none) :
    (m >>= f) s = none := by
  show (match m s with | none => none | some (a, s) => f a s) = _
  rw [h]

@[simp] theorem get_eq_some {u : σ} :
    (get : Call σ σ) s = some (u, t) ↔ u = s ∧ t = s := by
  show some (s, s) = some (u, t) ↔ _
  rw [Option.some.injEq, Prod.mk.injEq]
  exact ⟨fun h => ⟨h.1.symm, h.2.symm⟩, fun h => ⟨h.1.symm, h.2.symm⟩⟩

@[simp] theorem modify_eq_some {f : σ → σ} {u : Unit} :
    modify f s = some (u, t) ↔ t = f s := by
  show some ((), f s) = some (u, t) ↔ _
  rw [Option.some.injEq, Prod.mk.injEq]
  exact ⟨fun h => h.2.symm, fun h => ⟨rfl, h.symm⟩⟩

@[simp] theorem panic_ne_some {r : α × σ} :
    (panic : Call σ α) s ≠ some r := by
  show none ≠ some r
  exact fun h => by cases h

@[simp] theorem assert_eq_some {p : Prop} [Decidable p] {u : Unit} :
    (assert p : Call σ Unit) s = some (u, t) ↔ p ∧ t = s := by
  unfold assert
  split
  case isTrue hp =>
      rw [pure_eq_some]
      exact ⟨fun h => ⟨hp, h.2⟩, fun h => ⟨rfl, h.2⟩⟩
  case isFalse hp =>
      exact ⟨fun h => absurd h panic_ne_some, fun h => absurd h.1 hp⟩

@[simp] theorem ofOption_eq_some {o : Option α} :
    (ofOption o : Call σ α) s = some (a, t) ↔ o = some a ∧ t = s := by
  cases o with
  | none =>
      exact ⟨fun h => absurd h (panic_ne_some (s := s)), fun h => (by cases h.1)⟩
  | some a' =>
      show (pure a' : Call σ α) s = _ ↔ _
      rw [pure_eq_some, Option.some.injEq]
      exact ⟨fun h => ⟨h.1.symm, h.2⟩, fun h => ⟨h.1.symm, h.2⟩⟩

/-- A sequence that starts with an assertion. -/
theorem bind_assert_eq_some {p : Prop} [Decidable p] {f : Unit → Call σ β} :
    (assert p >>= f) s = some (b, t) ↔ p ∧ f () s = some (b, t) := by
  rw [bind_eq_some]
  constructor
  · rintro ⟨u, t', h, hrest⟩
    obtain ⟨hp, rfl⟩ := assert_eq_some.1 h
    exact ⟨hp, hrest⟩
  · exact fun h => ⟨(), s, assert_eq_some.2 ⟨h.1, rfl⟩, h.2⟩

theorem bind_get_eq {f : σ → Call σ β} : (get >>= f) s = f s s := rfl

theorem bind_modify_eq {g : σ → σ} {f : Unit → Call σ β} :
    (modify g >>= f) s = f () (g s) := rfl

end Call

end Ucore

namespace Ucore.Call

variable {σ α β : Type} {R S : σ → σ → Prop}

/-- Where the call returns, `R` holds of the states before and after. -/
def Relates (R : σ → σ → Prop) (m : Call σ α) : Prop :=
  ∀ s a t, m s = some (a, t) → R s t

namespace Relates

theorem mono {m : Call σ α} (h : Relates R m) (hRS : ∀ {s t}, R s t → S s t) :
    Relates S m :=
  fun s a t hrun => hRS (h s a t hrun)

theorem panic : Relates R (Call.panic : Call σ α) :=
  fun _ _ _ hrun => absurd hrun panic_ne_some

theorem modify {f : σ → σ} (h : ∀ s, R s (f s)) : Relates R (modify f) := by
  intro s a t hrun
  obtain rfl := modify_eq_some.1 hrun
  exact h s

section

variable [Std.Refl R]

theorem pure {a : α} : Relates R (Pure.pure a : Call σ α) := by
  intro s a' t hrun
  obtain ⟨-, rfl⟩ := pure_eq_some.1 hrun
  exact Std.Refl.refl t

theorem get : Relates R (Call.get : Call σ σ) := by
  intro s a t hrun
  obtain ⟨-, rfl⟩ := get_eq_some.1 hrun
  exact Std.Refl.refl t

theorem assert {p : Prop} [Decidable p] :
    Relates R (Call.assert p : Call σ Unit) := by
  intro s a t hrun
  obtain ⟨-, rfl⟩ := assert_eq_some.1 hrun
  exact Std.Refl.refl t

theorem ofOption {o : Option α} : Relates R (Call.ofOption o : Call σ α) := by
  intro s a t hrun
  obtain ⟨-, rfl⟩ := ofOption_eq_some.1 hrun
  exact Std.Refl.refl t

end

theorem bind [IsTrans σ R] {m : Call σ α} {f : α → Call σ β}
    (h : Relates R m) (hf : ∀ a, Relates R (f a)) : Relates R (m >>= f) := by
  intro s b u hrun
  obtain ⟨a, t, hm, hrest⟩ := bind_eq_some.1 hrun
  exact trans_of R (h s a t hm) (hf a t b u hrest)

/-- One of two calls. -/
theorem ite {p : Prop} [Decidable p] {m m' : Call σ α} (h : Relates R m)
    (h' : Relates R m') : Relates R (if p then m else m') := by
  split
  case isTrue => exact h
  case isFalse => exact h'

end Relates

end Ucore.Call

namespace Ucore.Call

variable {σ α β : Type} {s t : σ} {a : α} {m : Call σ α} {f : α → Call σ β}

/-- The call returns: it does not panic. -/
def Returns (m : Call σ α) (s : σ) : Prop := ∃ a t, m s = some (a, t)

theorem returns_iff_isSome : Returns m s ↔ (m s).isSome = true := by
  rw [Option.isSome_iff_exists]
  exact ⟨fun ⟨a, t, h⟩ => ⟨(a, t), h⟩, fun ⟨r, h⟩ => ⟨r.1, r.2, h⟩⟩

namespace Returns

theorem pure : Returns (Pure.pure a) s := ⟨a, s, rfl⟩

/-- The rest of a sequence is only run where its first call left. -/
theorem bind (h : Returns m s)
    (hf : ∀ a t, m s = some (a, t) → Returns (f a) t) :
    Returns (m >>= f) s := by
  obtain ⟨a, t, hm⟩ := h
  obtain ⟨b, u, hfa⟩ := hf a t hm
  exact ⟨b, u, bind_eq_some.2 ⟨a, t, hm, hfa⟩⟩

theorem bind_iff (h : m s = some (a, t)) :
    Returns (m >>= f) s ↔ Returns (f a) t := by
  unfold Returns
  rw [bind_of_eq f h]

theorem of_bind (h : Returns (m >>= f) s) : Returns m s := by
  obtain ⟨b, u, hrun⟩ := h
  obtain ⟨a, t, hm, -⟩ := bind_eq_some.1 hrun
  exact ⟨a, t, hm⟩

theorem get {f : σ → Call σ β} (h : Returns (f s) s) :
    Returns (Call.get >>= f) s :=
  (bind_iff rfl).2 h

theorem modify {g : σ → σ} {f : Unit → Call σ β} (h : Returns (f ()) (g s)) :
    Returns (Call.modify g >>= f) s :=
  (bind_iff rfl).2 h

theorem assert {p : Prop} [Decidable p] {f : Unit → Call σ β} (hp : p)
    (h : Returns (f ()) s) : Returns (Call.assert p >>= f) s :=
  (bind_iff (assert_eq_some.2 ⟨hp, rfl⟩)).2 h

theorem assert_iff {p : Prop} [Decidable p] {f : Unit → Call σ β} :
    Returns (Call.assert p >>= f) s ↔ p ∧ Returns (f ()) s := by
  constructor
  · intro h
    obtain ⟨_, _, hassert⟩ := h.of_bind
    obtain ⟨hp, -⟩ := assert_eq_some.1 hassert
    exact ⟨hp, (bind_iff (assert_eq_some.2 ⟨hp, rfl⟩)).1 h⟩
  · exact fun h => assert h.1 h.2

theorem ofOption {o : Option α} (ho : o = some a) (h : Returns (f a) s) :
    Returns (Call.ofOption o >>= f) s :=
  (bind_iff (ofOption_eq_some.2 ⟨ho, rfl⟩)).2 h

end Returns

end Ucore.Call

namespace Ucore.Call

variable {σ τ α β : Type} {s : σ} {t : τ} {a : α}
  {R : α → σ → τ → Prop} {S : β → σ → τ → Prop}

/-- When `m` returns, `m'` returns the same, and the states they leave are
related by `R`. -/
def Sim (m : Call σ α) (m' : Call τ α) (s : σ) (t : τ)
    (R : α → σ → τ → Prop) : Prop :=
  ∀ a s', m s = some (a, s') → ∃ t', m' t = some (a, t') ∧ R a s' t'

namespace Sim

theorem pure (h : R a s t) : Sim (Pure.pure a) (Pure.pure a) s t R := by
  intro a' s' hcall
  obtain ⟨rfl, rfl⟩ := pure_eq_some.1 hcall
  exact ⟨t, pure_eq_some.2 ⟨rfl, rfl⟩, h⟩

theorem bind {m : Call σ α} {m' : Call τ α} {f : α → Call σ β}
    {f' : α → Call τ β} (h : Sim m m' s t R)
    (hf : ∀ a s' t', R a s' t' → Sim (f a) (f' a) s' t' S) :
    Sim (m >>= f) (m' >>= f') s t S := by
  intro b s'' hcall
  obtain ⟨a, s', hm, hfa⟩ := bind_eq_some.1 hcall
  obtain ⟨t', hm', hR⟩ := h a s' hm
  obtain ⟨t'', hfa', hS⟩ := hf a s' t' hR b s'' hfa
  exact ⟨t'', bind_eq_some.2 ⟨a, t', hm', hfa'⟩, hS⟩

/-- A call that `m'` does not make. -/
theorem left {m : Call σ β} {f : β → Call σ α} {m' : Call τ α}
    (h : ∀ b s', m s = some (b, s') → Sim (f b) m' s' t R) :
    Sim (m >>= f) m' s t R := by
  intro a s'' hcall
  obtain ⟨b, s', hm, hfb⟩ := bind_eq_some.1 hcall
  exact h b s' hm a s'' hfb

/-- Each reads its own state. -/
theorem get {f : σ → Call σ β} {f' : τ → Call τ β}
    (h : Sim (f s) (f' t) s t S) :
    Sim (Call.get >>= f) (Call.get >>= f') s t S := by
  intro b s'' hcall
  obtain ⟨t'', hf', hS⟩ := h b s'' hcall
  exact ⟨t'', hf', hS⟩

theorem mono {m : Call σ α} {m' : Call τ α} {R' : α → σ → τ → Prop}
    (h : Sim m m' s t R) (hR : ∀ a s' t', R a s' t' → R' a s' t') :
    Sim m m' s t R' := by
  intro a s' hm
  obtain ⟨t', hm', hr⟩ := h a s' hm
  exact ⟨t', hm', hR a s' t' hr⟩

theorem assert {p : Prop} [Decidable p] {R : Unit → σ → τ → Prop}
    (h : p → R () s t) : Sim (Call.assert p) (Call.assert p) s t R := by
  intro a s' hcall
  obtain ⟨hp, rfl⟩ := assert_eq_some.1 hcall
  exact ⟨t, assert_eq_some.2 ⟨hp, rfl⟩, h hp⟩

theorem ofOption {o : Option α} (h : ∀ a, o = some a → R a s t) :
    Sim (Call.ofOption o) (Call.ofOption o) s t R := by
  intro a s' hcall
  obtain ⟨ho, rfl⟩ := ofOption_eq_some.1 hcall
  exact ⟨t, ofOption_eq_some.2 ⟨ho, rfl⟩, h a ho⟩

theorem panic {m' : Call τ α} : Sim Call.panic m' s t R := by
  intro a s' hcall
  exact absurd hcall panic_ne_some

theorem ite {p : Prop} [Decidable p] {m n : Call σ α} {m' n' : Call τ α}
    (hp : p → Sim m m' s t R) (hn : ¬ p → Sim n n' s t R) :
    Sim (if p then m else n) (if p then m' else n') s t R := by
  by_cases h : p
  · rw [if_pos h, if_pos h]
    exact hp h
  · rw [if_neg h, if_neg h]
    exact hn h

end Sim

end Ucore.Call
