/-
Systems that answer calls, and the events that are seen of them. A
specification accepts events one after the other (`accepts`). A system keeps
to it over a sequence of calls if the events of every initial part of the
sequence lead the specification to the state the system is then in
(`keeps_iff`).

Calls that answer. A system takes calls one after the other, and gives up
where one of them cannot be served. Two systems whose states stay related
give up at the same call and give the same answers.
-/
import Mathlib.Data.List.Induction
import Mathlib.Data.Option.Defs

namespace Ucore

variable {σ ι ρ ε β : Type}

/-- The state after calls. -/
def stateAfter (step : σ → ι → ρ × σ) : σ → List ι → σ
  | s, [] => s
  | s, i :: is => stateAfter step (step s i).2 is

/-- What is seen of the calls: of each the events of it and its answer. -/
def trace (step : σ → ι → ρ × σ) (events : ι → ρ → List ε) :
    σ → List ι → List ε
  | _, [] => []
  | s, i :: is => events i (step s i).1 ++ trace step events (step s i).2 is

/-- The state of a specification after events, if it accepts them. -/
def accepts (accept : β → ε → Option β) : β → List ε → Option β
  | b, [] => some b
  | b, e :: es => (accept b e).bind fun c => accepts accept c es

variable {step : σ → ι → ρ × σ} {events : ι → ρ → List ε}
  {accept : β → ε → Option β} {view : σ → β} {I : σ → Prop}
  {good : σ → ι → Prop} {s : σ} {i : ι} {b : β}

theorem stateAfter_concat (is : List ι) :
    stateAfter step s (is ++ [i]) = (step (stateAfter step s is) i).2 := by
  induction is generalizing s with
  | nil => rfl
  | cons j is ih => exact ih

theorem trace_concat (is : List ι) :
    trace step events s (is ++ [i])
      = trace step events s is ++ events i (step (stateAfter step s is) i).1 := by
  induction is generalizing s with
  | nil => exact List.append_nil _
  | cons j is ih =>
      show events j _ ++ trace step events _ (is ++ [i]) = _
      rw [ih, ← List.append_assoc]
      rfl

theorem accepts_append (es fs : List ε) :
    accepts accept b (es ++ fs)
      = (accepts accept b es).bind fun c => accepts accept c fs := by
  induction es generalizing b with
  | nil => rfl
  | cons e es ih =>
      show (accept b e).bind _ = ((accept b e).bind _).bind _
      rw [Option.bind_assoc]
      congr 1
      funext c
      exact ih

/-- A property that every call keeps holds after calls. -/
theorem stateAfter_invariant (hstep : ∀ {s} i, I s → I (step s i).2) (h : I s)
    (is : List ι) : I (stateAfter step s is) := by
  induction is generalizing s with
  | nil => exact h
  | cons i is ih => exact ih (hstep i h)

/-- Where one call keeps to the specification exactly if it is a good one,
calls one after the other do exactly if all of them are. -/
theorem keeps_iff (hinv : ∀ {s} i, I s → I (step s i).2)
    (hcall : ∀ {s} i, I s →
      (accepts accept (view s) (events i (step s i).1)
        = some (view (step s i).2) ↔ good s i))
    (h : I s) (is : List ι) :
    (∀ pre, pre <+: is → accepts accept (view s) (trace step events s pre)
        = some (view (stateAfter step s pre)))
      ↔ ∀ pre i, pre ++ [i] <+: is → good (stateAfter step s pre) i := by
  constructor
  · intro hall pre i hpre
    have hlast := hall (pre ++ [i]) hpre
    have hbefore := hall pre ((List.prefix_append pre [i]).trans hpre)
    rw [trace_concat, accepts_append, hbefore, stateAfter_concat] at hlast
    exact (hcall i (stateAfter_invariant hinv h pre)).1 hlast
  · intro hgood pre
    induction pre using List.reverseRecOn with
    | nil => exact fun _ => rfl
    | append_singleton pre i ih =>
        intro hpre
        have hbefore := ih ((List.prefix_append pre [i]).trans hpre)
        rw [trace_concat, accepts_append, hbefore, stateAfter_concat]
        exact (hcall i (stateAfter_invariant hinv h pre)).2 (hgood pre i hpre)

end Ucore

namespace Ucore

variable {σ τ ι ρ : Type}

/-- The answers to calls one after the other, and the state they leave. -/
def answers (call : σ → ι → Option (ρ × σ)) : σ → List ι → Option (List ρ × σ)
  | s, [] => some ([], s)
  | s, i :: is => do
      let (r, t) ← call s i
      let (rs, u) ← answers call t is
      some (r :: rs, u)

/-- The same answer, with related states after it. -/
def SameAnswer (R : σ → τ → Prop) (x : ρ × σ) (y : ρ × τ) : Prop :=
  x.1 = y.1 ∧ R x.2 y.2

variable {R : σ → τ → Prop} {call : σ → ι → Option (ρ × σ)}
  {call' : τ → ι → Option (ρ × τ)} {s : σ} {a : τ}

/-- Related results are passed on to functions that keep them related. -/
theorem rel_bind {α β γ δ : Type} {P : α → β → Prop}
    {Q : γ → δ → Prop} {o : Option α} {o' : Option β} {f : α → Option γ}
    {g : β → Option δ} (h : Option.Rel P o o')
    (hfg : ∀ {x y}, P x y → Option.Rel Q (f x) (g y)) :
    Option.Rel Q (o.bind f) (o'.bind g) := by
  cases h with
  | none => exact .none
  | some hxy => exact hfg hxy

/-- A relation that every call keeps is kept by calls one after the other. -/
theorem answers_rel
    (hcall : ∀ {s a} i, R s a →
      Option.Rel (SameAnswer R) (call s i) (call' a i))
    (h : R s a) (is : List ι) :
    Option.Rel (SameAnswer R) (answers call s is) (answers call' a is) := by
  induction is generalizing s a with
  | nil => exact .some ⟨rfl, h⟩
  | cons i is ih =>
      apply rel_bind (hcall i h)
      intro x y hxy
      obtain ⟨hr, hR⟩ := hxy
      apply rel_bind (ih hR)
      intro xs ys hrest
      obtain ⟨hrs, hR'⟩ := hrest
      exact .some ⟨by rw [hr, hrs], hR'⟩

end Ucore
