/-
Turns taken around a list. From the one whose turn it is, the list is gone
through in order, over its end and back to where it started (`rotation`);
one that is not on the list starts at its front. The turn goes to the first
that is ready.

Going round from `q`, the turn stays behind a `p` that is ready until it is
its turn (`Behind`), and so does not come back to `q`. Others may be added at
the front of the list, and any may leave it but `p`, `q` and the one whose
turn it is.
-/
import Mathlib.Data.List.Basic
import Mathlib.Data.List.Nodup

namespace Ucore.RoundRobin

variable {α : Type} {L l₁ l₂ A B : List α} {c p q r x : α} {ready : α → Bool}

/-- The first that is ready comes before any other that is. -/
theorem sublist_of_find {M : List α} (hfind : M.find? ready = some x)
    (hp : p ∈ M) (hready : ready p = true) (hne : x ≠ p) :
    [x, p].Sublist M := by
  obtain ⟨-, as, bs, hM, hnot⟩ := List.find?_eq_some_iff_append.1 hfind
  rw [hM] at hp ⊢
  have hpas : p ∉ as := by
    intro hin
    have hno := hnot p hin
    rw [hready] at hno
    cases hno
  have hpbs : p ∈ bs := by
    rcases List.mem_append.1 hp with hin | hin
    · exact absurd hin hpas
    · exact (List.mem_cons.1 hin).resolve_left (Ne.symm hne)
  exact ((List.singleton_sublist.2 hpbs).cons_cons x).trans
    (List.sublist_append_right as _)

variable [DecidableEq α]

-- ======================================================= going round

/-- The list from behind `c` on, round to `c`. -/
def rotation (L : List α) (c : α) : List α :=
  L.drop (L.idxOf c + 1) ++ L.take (L.idxOf c + 1)

theorem rotation_split (hc : c ∉ l₁) :
    rotation (l₁ ++ c :: l₂) c = l₂ ++ l₁ ++ [c] := by
  have hidx : (l₁ ++ c :: l₂).idxOf c = l₁.length := by
    rw [List.idxOf_append_of_notMem hc, List.idxOf_cons_self, Nat.add_zero]
  have hsplit : l₁ ++ c :: l₂ = (l₁ ++ [c]) ++ l₂ := by simp
  have hlen : (l₁ ++ [c]).length = l₁.length + 1 := List.length_append
  rw [rotation, hidx, hsplit, ← hlen, List.drop_left, List.take_left,
    List.append_assoc]

theorem rotation_notMem (hc : c ∉ L) : rotation L c = L := by
  have hle : L.length ≤ L.length + 1 := Nat.le_succ _
  rw [rotation, List.idxOf_of_notMem hc, List.drop_of_length_le hle,
    List.take_of_length_le hle, List.nil_append]

theorem rotation_perm (L : List α) (c : α) : (rotation L c).Perm L := by
  apply List.perm_append_comm.trans
  rw [List.take_append_drop]

/-- Going round from one passed on the way. -/
theorem rotation_again (hnodup : L.Nodup)
    (h : rotation L q = A ++ c :: B) : rotation L c = B ++ A ++ [c] := by
  have hnd : (A ++ c :: B).Nodup := h ▸ (rotation_perm L q).nodup_iff.2 hnodup
  have hcut := List.nodup_append.1 hnd
  have hcA : c ∉ A := fun hin => hcut.2.2 c hin c List.mem_cons_self rfl
  have hcB : c ∉ B := (List.nodup_cons.1 hcut.2.1).1
  by_cases hq : q ∈ L
  case neg =>
    rw [rotation_notMem hq] at h
    rw [h]
    exact rotation_split hcA
  case pos =>
    obtain ⟨l₁, l₂, hL, hql⟩ := List.eq_append_cons_of_mem hq
    have hc : c ∈ L := (rotation_perm L q).mem_iff.1 (by rw [h]; simp)
    rw [hL, rotation_split hql] at h
    rw [hL] at hc hnodup ⊢
    have hcases : c ∈ l₁ ∨ c = q ∨ c ∈ l₂ := by
      rcases List.mem_append.1 hc with hin | hin
      · exact .inl hin
      · exact .inr (List.mem_cons.1 hin)
    rcases hcases with hin | heq | hin
    · obtain ⟨a₁, a₂, hl, hca⟩ := List.eq_append_cons_of_mem hin
      have hA : A ++ c :: B = (l₂ ++ a₁) ++ c :: (a₂ ++ [q]) := by
        rw [← h, hl]
        simp
      obtain ⟨rfl, -, rfl⟩ := (List.append_cons_inj_of_notMem hcA hcB).1 hA
      have hL' : l₁ ++ q :: l₂ = a₁ ++ c :: (a₂ ++ q :: l₂) := by
        rw [hl]
        simp
      rw [hL', rotation_split hca]
      simp
    · rw [heq] at h hcA hcB ⊢
      have hA : A ++ q :: B = (l₂ ++ l₁) ++ q :: [] := h.symm
      obtain ⟨rfl, -, rfl⟩ := (List.append_cons_inj_of_notMem hcA hcB).1 hA
      rw [rotation_split hql]
      simp
    · obtain ⟨a₁, a₂, hl, hca⟩ := List.eq_append_cons_of_mem hin
      have hA : A ++ c :: B = a₁ ++ c :: (a₂ ++ l₁ ++ [q]) := by
        rw [← h, hl]
        simp
      obtain ⟨rfl, -, rfl⟩ := (List.append_cons_inj_of_notMem hcA hcB).1 hA
      have hL' : l₁ ++ q :: l₂ = (l₁ ++ q :: A) ++ c :: a₂ := by
        rw [hl]
        simp
      have hcl : c ∉ l₁ ++ q :: A := by
        intro hin'
        rw [hL'] at hnodup
        exact (List.nodup_append.1 hnodup).2.2 c hin' c List.mem_cons_self rfl
      rw [hL', rotation_split hcl]
      simp

-- ========================================================= the turns

/-- Going round from `q`, the one whose turn it is comes before `p`. -/
def Behind (L : List α) (q c p : α) : Prop :=
  c = q ∨ [c, p].Sublist (rotation L q)

/-- Going round from `q`, `q` comes last. -/
theorem not_after_self (hnodup : L.Nodup) :
    ¬ [q, p].Sublist (rotation L q) := by
  intro hsub
  have hq : q ∈ L :=
    (rotation_perm L q).mem_iff.1 (hsub.subset List.mem_cons_self)
  obtain ⟨l₁, l₂, hL, hql⟩ := List.eq_append_cons_of_mem hq
  rw [hL, rotation_split hql] at hsub
  rw [hL] at hnodup
  have hqr : q ∉ l₂ ++ l₁ := by
    have hperm : (l₁ ++ q :: l₂).Perm (q :: (l₂ ++ l₁)) :=
      List.perm_middle.trans (List.perm_append_comm.cons q)
    exact (List.nodup_cons.1 (hperm.nodup_iff.1 hnodup)).1
  obtain ⟨s₁, s₂, hs, hs₁, hs₂⟩ := List.sublist_append_iff.1 hsub
  cases s₁ with
  | nil =>
      rw [List.nil_append] at hs
      rw [← hs] at hs₂
      exact absurd hs₂.length_le (by simp)
  | cons y s₁ =>
      rw [List.cons_append] at hs
      have hy : q = y := (List.cons.inj hs).1
      exact hqr (hs₁.subset (hy ▸ List.mem_cons_self))

/-- A turn that does not go to `p` stays behind it, and does not go to
`q`. -/
theorem Behind.turn (h : Behind L q c p) (hnodup : L.Nodup) (hp : p ∈ L)
    (hready : ready p = true)
    (hturn : (rotation L c).find? ready = some x) (hne : x ≠ p) :
    Behind L q x p ∧ x ≠ q := by
  have hsub : [x, p].Sublist (rotation L q) := by
    rcases h with heq | hsub
    · rw [heq] at hturn
      exact sublist_of_find hturn ((rotation_perm L q).mem_iff.2 hp) hready hne
    · -- what comes after `c` is where the search starts
      obtain ⟨r₁, B, hr, hc, hpB⟩ := List.cons_sublist_iff.1 hsub
      obtain ⟨A, a, hA, -⟩ := List.eq_append_cons_of_mem hc
      have hAB : rotation L q = A ++ c :: (a ++ B) := by
        rw [hr, hA, List.append_assoc, List.cons_append]
      replace hpB : p ∈ a ++ B :=
        List.mem_append_right a (List.singleton_sublist.1 hpB)
      rw [rotation_again hnodup hAB, List.append_assoc, List.find?_append]
        at hturn
      have hsome : ((a ++ B).find? ready).isSome :=
        List.find?_isSome.2 ⟨p, hpB, hready⟩
      obtain ⟨y, hy⟩ := Option.isSome_iff_exists.1 hsome
      rw [hy] at hturn
      cases hturn
      have hB := sublist_of_find hy hpB hready hne
      rw [hAB]
      exact hB.trans ((List.sublist_cons_self c _).trans
        (List.sublist_append_right A _))
  refine ⟨.inr hsub, ?_⟩
  intro heq
  rw [heq] at hsub
  exact not_after_self hnodup hsub

/-- One is added at the front. -/
theorem Behind.add (h : Behind L q c p) (hr : r ≠ q) :
    Behind (r :: L) q c p := by
  rcases h with heq | hsub
  · exact .inl heq
  refine .inr (hsub.trans ?_)
  by_cases hq : q ∈ L
  · obtain ⟨l₁, l₂, hL, hql⟩ := List.eq_append_cons_of_mem hq
    have hqr : q ∉ r :: l₁ := by
      rw [List.mem_cons, not_or]
      exact ⟨Ne.symm hr, hql⟩
    rw [hL, rotation_split hql, ← List.cons_append, rotation_split hqr]
    exact ((List.sublist_cons_self r l₁).append_left l₂).append_right [q]
  · have hqr : q ∉ r :: L := by
      rw [List.mem_cons, not_or]
      exact ⟨Ne.symm hr, hq⟩
    rw [rotation_notMem hq, rotation_notMem hqr]
    exact List.sublist_cons_self r L

theorem rotation_filter {f : α → Bool} (hf : f q = true) :
    rotation (L.filter f) q = (rotation L q).filter f := by
  by_cases hq : q ∈ L
  · obtain ⟨l₁, l₂, hL, hql⟩ := List.eq_append_cons_of_mem hq
    have hqf : q ∉ l₁.filter f := fun hin => hql (List.mem_filter.1 hin).1
    rw [hL, rotation_split hql, List.filter_append,
      List.filter_cons_of_pos hf, rotation_split hqf, List.filter_append,
      List.filter_append, List.filter_cons_of_pos hf, List.filter_nil]
  · have hqf : q ∉ L.filter f := fun hin => hq (List.mem_filter.1 hin).1
    rw [rotation_notMem hq, rotation_notMem hqf]

/-- Another one leaves. -/
theorem Behind.leave (h : Behind L q c p) (hnodup : L.Nodup) (hq : r ≠ q)
    (hc : r ≠ c) (hp : r ≠ p) : Behind (L.erase r) q c p := by
  rcases h with heq | hsub
  · exact .inl heq
  have hkept : [c, p].filter (· != r) = [c, p] := by
    apply List.filter_eq_self.2
    intro x hx
    rcases List.mem_pair.1 hx with hx | hx
    · simpa [hx] using Ne.symm hc
    · simpa [hx] using Ne.symm hp
  have hfilter := hsub.filter (· != r)
  rw [hkept, ← rotation_filter (by simpa using Ne.symm hq)] at hfilter
  refine .inr ?_
  rwa [hnodup.erase_eq_filter]

end Ucore.RoundRobin
