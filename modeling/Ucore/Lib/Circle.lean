/-
Circular singly linked lists.

A list is `Linked` when each of its members but the last points at the one
after it. The members of a circle are written down from any of them
(`Circle.rotate`), and an operation is stated at the member it begins from:
`Circle nx (c :: xs)` says that from `c` one comes through `xs` back to `c`.
-/
import Mathlib.Data.List.Chain
import Mathlib.Data.List.Nodup
import Mathlib.Logic.Function.Iterate

namespace Ucore

variable {ν : Type} {nx nx' : ν → ν} {a b c d : ν} {xs ys pre suf : List ν}

/-- Each member but the last points at the one after it. -/
def Linked (nx : ν → ν) (xs : List ν) : Prop :=
  xs.IsChain fun a b => nx a = b

@[simp] theorem linked_singleton : Linked nx [a] := List.isChain_singleton a

@[simp] theorem linked_cons_cons :
    Linked nx (a :: b :: xs) ↔ nx a = b ∧ Linked nx (b :: xs) :=
  List.isChain_cons_cons

/-- Two halves that share a member. -/
theorem linked_split :
    Linked nx (xs ++ c :: ys) ↔ Linked nx (xs ++ [c]) ∧ Linked nx (c :: ys) :=
  List.isChain_split

/-- A linked list reads the pointers of its members but the last. -/
theorem Linked.congr (h : Linked nx (xs ++ [b])) (hx : ∀ x ∈ xs, nx' x = nx x) :
    Linked nx' (xs ++ [b]) := by
  induction xs with
  | nil => exact linked_singleton
  | cons a xs ih =>
      cases xs with
      | nil =>
          obtain ⟨hab, -⟩ := linked_cons_cons.1 h
          exact linked_cons_cons.2
            ⟨(hx a List.mem_cons_self).trans hab, linked_singleton⟩
      | cons a' xs =>
          obtain ⟨haa, hrest⟩ := linked_cons_cons.1 h
          refine linked_cons_cons.2
            ⟨(hx a List.mem_cons_self).trans haa, ih hrest ?_⟩
          intro x hxs
          exact hx x (List.mem_cons_of_mem a hxs)

/-- From another member that points at the same place. -/
theorem Linked.from (h : Linked nx (a :: (xs ++ [b]))) (hc : nx' c = nx a)
    (hx : ∀ x ∈ xs, nx' x = nx x) : Linked nx' (c :: (xs ++ [b])) := by
  cases xs with
  | nil =>
      obtain ⟨hab, -⟩ := linked_cons_cons.1 h
      exact linked_cons_cons.2 ⟨hc.trans hab, linked_singleton⟩
  | cons x xs =>
      obtain ⟨hax, hrest⟩ := linked_cons_cons.1 h
      exact linked_cons_cons.2 ⟨hc.trans hax, hrest.congr hx⟩

-- =========================================================== circles

/-- The members point at each other in this order, the last at the first. -/
def Circle (nx : ν → ν) : List ν → Prop
  | [] => False
  | c :: xs => Linked nx (c :: (xs ++ [c]))

/-- A circle is one from each of its members. -/
theorem Circle.rotate (h : Circle nx (pre ++ c :: suf)) :
    Circle nx (c :: (suf ++ pre)) := by
  cases pre with
  | nil =>
      rw [List.append_nil]
      exact h
  | cons b pre =>
      have hcut : Linked nx ((b :: pre) ++ c :: (suf ++ [b])) := by
        have hh : Linked nx (b :: ((pre ++ c :: suf) ++ [b])) := h
        simpa using hh
      obtain ⟨hfront, hback⟩ := linked_split.1 hcut
      have hjoin : Linked nx ((c :: suf) ++ b :: (pre ++ [c])) :=
        linked_split.2 ⟨hback, hfront⟩
      show Linked nx (c :: ((suf ++ b :: pre) ++ [c]))
      simpa using hjoin

theorem Circle.unrotate (suf : List ν) (h : Circle nx (c :: (suf ++ pre))) :
    Circle nx (pre ++ c :: suf) := by
  cases pre with
  | nil =>
      rw [List.append_nil] at h
      exact h
  | cons b pre =>
      have hcut : Circle nx ((c :: suf) ++ b :: pre) := h
      exact hcut.rotate

/-- A circle written down from another member. -/
theorem Circle.swap (xs ys : List ν) (h : Circle nx (xs ++ ys)) :
    Circle nx (ys ++ xs) := by
  cases ys with
  | nil =>
      rw [List.append_nil] at h
      exact h
  | cons c ys => exact h.rotate

/-- What a member points at. -/
theorem Circle.next (h : Circle nx (c :: d :: xs)) : nx c = d :=
  (linked_cons_cons.1 h).1

/-- Taking out the member after `c`. -/
theorem Circle.remove (h : Circle nx (c :: d :: xs)) (hc : nx' c = nx d)
    (hx : ∀ x ∈ xs, nx' x = nx x) : Circle nx' (c :: xs) :=
  Linked.from (linked_cons_cons.1 h).2 hc hx

/-- Putting a member in the place of the one after `c`. -/
theorem Circle.replace (h : Circle nx (c :: d :: xs)) (hc : nx' c = b)
    (hb : nx' b = nx d) (hx : ∀ x ∈ xs, nx' x = nx x) :
    Circle nx' (c :: b :: xs) :=
  linked_cons_cons.2 ⟨hc, Linked.from (linked_cons_cons.1 h).2 hb hx⟩

/-- A circle reads the pointers of its members. -/
theorem Circle.congr (h : Circle nx xs) (hx : ∀ x ∈ xs, nx' x = nx x) :
    Circle nx' xs := by
  cases xs with
  | nil => exact h
  | cons c xs =>
      exact Linked.from h (hx c List.mem_cons_self)
        (fun x hxs => hx x (List.mem_cons_of_mem c hxs))

/-- The member after a member is one. -/
theorem Circle.next_mem (h : Circle nx xs) (hx : c ∈ xs) : nx c ∈ xs := by
  obtain ⟨pre, suf, rfl⟩ := List.append_of_mem hx
  have hround := h.rotate
  cases hrest : suf ++ pre with
  | nil =>
      rw [hrest] at hround
      rw [(linked_cons_cons.1 hround).1]
      exact hx
  | cons d ys =>
      rw [hrest] at hround
      rw [hround.next]
      have hd : d ∈ suf ++ pre := by
        rw [hrest]
        exact List.mem_cons_self
      rcases List.mem_append.1 hd with hd | hd
      · exact List.mem_append_right _ (List.mem_cons_of_mem _ hd)
      · exact List.mem_append_left _ hd

/-- The pointers lead from the first of a linked list to all of it. -/
theorem Linked.iterate (h : Linked nx (a :: xs)) (hc : c ∈ a :: xs) :
    ∃ k, nx^[k] a = c := by
  induction xs generalizing a with
  | nil => exact ⟨0, (List.mem_singleton.1 hc).symm⟩
  | cons b xs ih =>
      obtain ⟨hab, hrest⟩ := linked_cons_cons.1 h
      rcases List.mem_cons.1 hc with rfl | hc
      · exact ⟨0, rfl⟩
      · obtain ⟨k, hk⟩ := ih hrest hc
        refine ⟨k + 1, ?_⟩
        rw [Function.iterate_succ_apply, hab]
        exact hk

/-- The pointers lead to the last of a linked list in as many steps as it has
members before. -/
theorem Linked.iterate_length (h : Linked nx (a :: (xs ++ [b]))) :
    nx^[xs.length + 1] a = b := by
  induction xs generalizing a with
  | nil => exact (linked_cons_cons.1 h).1
  | cons c xs ih =>
      obtain ⟨hac, hrest⟩ := linked_cons_cons.1 h
      rw [List.length_cons, Function.iterate_succ_apply, hac]
      exact ih hrest

/-- Once around the circle. -/
theorem Circle.iterate_length (h : Circle nx xs) (ha : a ∈ xs) :
    nx^[xs.length] a = a := by
  obtain ⟨pre, suf, rfl⟩ := List.append_of_mem ha
  have hround : Linked nx (a :: ((suf ++ pre) ++ [a])) := h.rotate
  have hlen : (pre ++ a :: suf).length = (suf ++ pre).length + 1 := by
    simp only [List.length_append, List.length_cons]
    omega
  rw [hlen]
  exact hround.iterate_length

/-- The members are what the pointers lead to from any of them. -/
theorem Circle.mem_iff (h : Circle nx xs) (ha : a ∈ xs) :
    c ∈ xs ↔ ∃ k, nx^[k] a = c := by
  constructor
  · intro hc
    obtain ⟨pre, suf, rfl⟩ := List.append_of_mem ha
    apply Linked.iterate h.rotate
    rcases List.mem_append.1 hc with hc | hc
    · simp [hc]
    · rcases List.mem_cons.1 hc with rfl | hc
      · exact List.mem_cons_self
      · simp [hc]
  · intro hc
    obtain ⟨k, rfl⟩ := hc
    induction k with
    | zero => exact ha
    | succ k ih =>
        rw [Function.iterate_succ_apply']
        exact h.next_mem ih

end Ucore
