/-
Bounded queues, and the arrays that hold them.

An item that is put where the queue is full is dropped, and items are taken
from the front. An array holds a queue from a start on (`window`): positions
are reduced by the size of the array, so that a window may go over its end.
-/
import Ucore.Lib.Trace
import Mathlib.Data.Nat.ModEq
import Mathlib.Logic.Function.Basic

namespace Ucore

variable {α : Type}

/-- An item is put, or was taken. -/
inductive FifoEvent (α : Type) where
  | put (x : α)
  | take (x : α)

section Events

variable [DecidableEq α]

/-- A queue of at most `cap` items. -/
def fifo (cap : Nat) (q : List α) : FifoEvent α → Option (List α)
  | .put x => some (if q.length < cap then q ++ [x] else q)
  | .take x =>
      match q with
      | [] => none
      | y :: q' => if x = y then some q' else none

/-- The items that are put. -/
def puts (xs : List α) : List (FifoEvent α) := xs.map .put

/-- The items that are taken. -/
def takes (xs : List α) : List (FifoEvent α) := xs.map .take

variable {cap : Nat} {q q' xs : List α} {x : α} {es : List (FifoEvent α)}

/-- Those for which there is room come behind the others. -/
theorem accepts_puts (h : q.length ≤ cap) (xs : List α) :
    accepts (fifo cap) q (puts xs)
      = some (q ++ xs.take (cap - q.length)) := by
  induction xs generalizing q with
  | nil =>
      rw [List.take_nil, List.append_nil]
      rfl
  | cons x xs ih =>
      show accepts (fifo cap) (if q.length < cap then q ++ [x] else q)
        (puts xs) = _
      by_cases hroom : q.length < cap
      · have hlen : (q ++ [x]).length ≤ cap := by
          rw [List.length_append, List.length_singleton]
          omega
        have hleft : cap - q.length = (cap - (q ++ [x]).length) + 1 := by
          rw [List.length_append, List.length_singleton]
          omega
        rw [if_pos hroom, ih hlen, hleft, List.take_succ_cons,
          List.append_assoc]
        rfl
      · have hfull : cap - q.length = 0 := by omega
        rw [if_neg hroom, ih h, hfull, List.take_zero, List.take_zero]

/-- Items that were taken are the first of the queue. -/
theorem accepts_takes :
    accepts (fifo cap) q (takes xs) = some q' ↔ q = xs ++ q' := by
  induction xs generalizing q with
  | nil =>
      show some q = some q' ↔ q = [] ++ q'
      rw [Option.some.injEq, List.nil_append]
  | cons x xs ih =>
      cases q with
      | nil =>
          show (none : Option (List α)) = some q' ↔ [] = x :: xs ++ q'
          simp
      | cons y q =>
          show (if x = y then some q else none).bind _ = _ ↔ _
          by_cases hxy : x = y
          · rw [if_pos hxy, Option.bind_some]
            rw [List.cons_append, hxy, List.cons.injEq]
            exact ih.trans (by simp)
          · rw [if_neg hxy, Option.bind_none, List.cons_append,
              List.cons.injEq]
            have hyx : y ≠ x := fun heq => hxy heq.symm
            simp [hyx]

/-- The items that were taken, of events. -/
def taken (es : List (FifoEvent α)) : List α :=
  es.filterMap fun
    | .put _ => none
    | .take x => some x

/-- The items that were put, of events. -/
def offered (es : List (FifoEvent α)) : List α :=
  es.filterMap fun
    | .put x => some x
    | .take _ => none

/-- Every item that is accepted is taken once, or is still there, in order;
and there are never more than `cap`. -/
theorem fifo_conserves (h : accepts (fifo cap) q es = some q')
    (hq : q.length ≤ cap) :
    ∃ kept, kept.Sublist (offered es) ∧ q ++ kept = taken es ++ q'
      ∧ q'.length ≤ cap := by
  induction es generalizing q with
  | nil =>
      cases h
      exact ⟨[], .slnil, List.append_nil _, hq⟩
  | cons e es ih =>
      cases e with
      | put x =>
          have hrest : accepts (fifo cap)
              (if q.length < cap then q ++ [x] else q) es = some q' := h
          by_cases hroom : q.length < cap
          · rw [if_pos hroom] at hrest
            have hlen : (q ++ [x]).length ≤ cap := by
              rw [List.length_append, List.length_singleton]
              omega
            obtain ⟨kept, hsub, heq, hcap⟩ := ih hrest hlen
            refine ⟨x :: kept, hsub.cons_cons x, ?_, hcap⟩
            rw [List.append_assoc] at heq
            exact heq
          · rw [if_neg hroom] at hrest
            obtain ⟨kept, hsub, heq, hcap⟩ := ih hrest hq
            exact ⟨kept, hsub.cons x, heq, hcap⟩
      | take x =>
          cases q with
          | nil => cases h
          | cons y q =>
              have hrest : (if x = y then some q else none).bind
                  (fun c => accepts (fifo cap) c es) = some q' := h
              by_cases hxy : x = y
              · rw [if_pos hxy, Option.bind_some] at hrest
                rw [List.length_cons] at hq
                obtain ⟨kept, hsub, heq, hcap⟩ := ih hrest (by omega)
                refine ⟨kept, hsub, ?_, hcap⟩
                rw [← hxy, List.cons_append, heq]
                rfl
              · rw [if_neg hxy] at hrest
                cases hrest

end Events

-- =========================================================== windows

/-- The `n` items from a position on. -/
def window (size : Nat) (buf : Nat → α) (start n : Nat) : List α :=
  (List.range n).map fun k => buf ((start + k) % size)

section Windows

variable {size start n i : Nat} {buf : Nat → α} {x : α}

@[simp] theorem length_window : (window size buf start n).length = n := by
  simp [window]

/-- The last item of a window. -/
theorem window_concat : window size buf start (n + 1)
    = window size buf start n ++ [buf ((start + n) % size)] := by
  unfold window
  rw [List.range_succ, List.map_append, List.map_singleton]

/-- Its first item. -/
theorem window_cons : window size buf start (n + 1)
    = buf (start % size) :: window size buf (start + 1) n := by
  unfold window
  rw [List.range_succ_eq_map, List.map_cons, List.map_map, Nat.add_zero]
  congr 1
  apply List.map_congr_left
  intro k _
  show buf ((start + (k + 1)) % size) = buf ((start + 1 + k) % size)
  rw [Nat.add_right_comm, Nat.add_assoc]

/-- A start is as good as any other that is equal modulo the size. -/
theorem window_mod : window size buf (start % size) n
    = window size buf start n := by
  unfold window
  apply List.map_congr_left
  intro k _
  rw [Nat.mod_add_mod]

/-- A store at another place. -/
theorem window_update (h : ∀ k < n, (start + k) % size ≠ i) :
    window size (Function.update buf i x) start n
      = window size buf start n := by
  unfold window
  apply List.map_congr_left
  intro k hk
  exact Function.update_of_ne (h k (List.mem_range.1 hk)) x buf

/-- Places of one window are different. -/
theorem window_place_ne {k l : Nat} (hk : k < l) (hl : l < size) :
    (start + k) % size ≠ (start + l) % size := by
  intro heq
  have hmod : k % size = l % size := by
    have hcong : Nat.ModEq size (start + k) (start + l) := heq
    exact Nat.ModEq.add_left_cancel' start hcong
  rw [Nat.mod_eq_of_lt (hk.trans hl), Nat.mod_eq_of_lt hl] at hmod
  omega

/-- An item that is stored behind a window with room. -/
theorem window_put (h : n < size) :
    window size (Function.update buf ((start + n) % size) x) start (n + 1)
      = window size buf start n ++ [x] := by
  rw [window_concat, Function.update_self, window_update]
  intro k hk
  exact window_place_ne hk h

/-- One that is stored behind a window without room is stored over its first
item. -/
theorem window_overwrite (h : size = n + 1) :
    window size (Function.update buf ((start + size) % size) x) start size
      = x :: window size buf (start + 1) n := by
  rw [Nat.add_mod_right]
  have hfirst : window size (Function.update buf (start % size) x) start (n + 1)
      = x :: window size buf (start + 1) n := by
    rw [window_cons, Function.update_self, window_update]
    intro k hk
    have hne := @window_place_ne size start 0 (k + 1) (Nat.succ_pos k)
      (by omega)
    rw [Nat.add_zero] at hne
    rw [Nat.add_assoc, Nat.add_comm 1 k]
    exact hne.symm
  rw [← h] at hfirst
  exact hfirst

end Windows

end Ucore
