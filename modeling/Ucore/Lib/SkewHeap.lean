/-
Skew heaps as trees. `merge` interleaves the right spines of two heaps and
swaps the children it passes; an insertion merges with a single node, and
a node is removed by merging its children in its place.

The order is known to `merge` only through a test `lt`. It need agree with
the order `le` on the nodes that are compared, so a test that is right only
inside some window of keys serves as long as the heap stays inside it.
-/
import Mathlib.Data.Tree.Basic
import Mathlib.Data.List.Perm.Basic

namespace Ucore.SkewHeap

variable {α : Type} {lt : α → α → Bool} {le : α → α → Prop}
  {s t l r : BinaryTree α} {x y : α}

-- ==================================================== the operations

/-- The nodes of a tree. -/
def nodes : BinaryTree α → List α
  | .nil => []
  | .node x l r => x :: (nodes l ++ nodes r)

/-- The union of two heaps. -/
def merge (lt : α → α → Bool) : BinaryTree α → BinaryTree α → BinaryTree α
  | .nil, t => t
  | .node x l r, .nil => .node x l r
  | .node x l r, .node y l' r' =>
      if lt x y then .node x (merge lt r (.node y l' r')) l
      else .node y (merge lt (.node x l r) r') l'
termination_by s t => s.numNodes + t.numNodes

/-- A heap without a node. -/
def erase [DecidableEq α] (lt : α → α → Bool) (x : α) :
    BinaryTree α → BinaryTree α
  | .nil => .nil
  | .node y l r =>
      if y = x then merge lt l r else .node y (erase lt x l) (erase lt x r)

/-- Every node is at most the nodes below it. -/
def Heap (le : α → α → Prop) : BinaryTree α → Prop
  | .nil => True
  | .node x l r =>
      (∀ y ∈ nodes l ++ nodes r, le x y) ∧ Heap le l ∧ Heap le r

-- =========================================================== merging

/-- Merging keeps the nodes. -/
theorem nodes_merge (lt : α → α → Bool) (s t : BinaryTree α) :
    (nodes (merge lt s t)).Perm (nodes s ++ nodes t) := by
  induction s, t using merge.induct lt with
  | case1 t => rw [merge, nodes, List.nil_append]
  | case2 x l r => rw [merge, nodes, nodes, List.append_nil]
  | case3 x l r y l' r' hlt ih =>
      rw [merge, if_pos hlt, nodes, nodes, List.cons_append, List.append_assoc]
      apply List.Perm.cons x
      exact (ih.append_right (nodes l)).trans List.perm_append_comm
  | case4 x l r y l' r' hlt ih =>
      rw [merge, if_neg hlt, nodes]
      have hbelow : (nodes (merge lt (.node x l r) r') ++ nodes l').Perm
          (nodes (.node x l r) ++ (nodes l' ++ nodes r')) := by
        refine (ih.append_right (nodes l')).trans ?_
        rw [List.append_assoc]
        exact List.perm_append_comm.append_left _
      exact (hbelow.cons y).trans List.perm_middle.symm

theorem mem_merge :
    x ∈ nodes (merge lt s t) ↔ x ∈ nodes s ∨ x ∈ nodes t := by
  rw [(nodes_merge lt s t).mem_iff, List.mem_append]

/-- A node at most those of two trees is at most those of both. -/
theorem heap_node (hl : ∀ y ∈ nodes l, le x y) (hr : ∀ y ∈ nodes r, le x y)
    (hheapl : Heap le l) (hheapr : Heap le r) : Heap le (.node x l r) := by
  refine ⟨fun y hy => ?_, hheapl, hheapr⟩
  rcases List.mem_append.mp hy with hy | hy
  · exact hl y hy
  · exact hr y hy

/-- Only the order of the nodes matters. -/
theorem heap_mono {le' : α → α → Prop} (h : Heap le t)
    (hle : ∀ {x y}, x ∈ nodes t → y ∈ nodes t → le x y → le' x y) :
    Heap le' t := by
  induction t with
  | nil => trivial
  | node x l r ihl ihr =>
      obtain ⟨hx, hl, hr⟩ := h
      refine ⟨fun y hy => ?_, ihl hl fun ha hb => ?_, ihr hr fun ha hb => ?_⟩
      · exact hle List.mem_cons_self (List.mem_cons_of_mem x hy) (hx y hy)
      · exact hle (List.mem_cons_of_mem x (List.mem_append_left _ ha))
          (List.mem_cons_of_mem x (List.mem_append_left _ hb))
      · exact hle (List.mem_cons_of_mem x (List.mem_append_right _ ha))
          (List.mem_cons_of_mem x (List.mem_append_right _ hb))

/-- The test decides the order of the nodes of two trees. -/
def Decides (lt : α → α → Bool) (le : α → α → Prop) (s t : BinaryTree α) :
    Prop :=
  ∀ {x y}, x ∈ nodes s → y ∈ nodes t →
    (lt x y = true → le x y) ∧ (lt x y = false → le y x)

/-- Merging two heaps gives a heap. -/
theorem heap_merge (htrans : ∀ a b c, le a b → le b c → le a c)
    (s t : BinaryTree α) (hlt : Decides lt le s t) (hs : Heap le s)
    (ht : Heap le t) : Heap le (merge lt s t) := by
  induction s, t using merge.induct lt with
  | case1 t => rwa [merge]
  | case2 x l r => rwa [merge]
  | case3 x l r y l' r' hxy ih =>
      obtain ⟨hx, hl, hr⟩ := hs
      have hle : le x y := (hlt List.mem_cons_self List.mem_cons_self).1 hxy
      rw [merge, if_pos hxy]
      refine heap_node (fun z hz => ?_)
        (fun z hz => hx z (List.mem_append_left _ hz)) ?_ hl
      · rcases mem_merge.mp hz with hz | hz
        · exact hx z (List.mem_append_right _ hz)
        · rcases List.mem_cons.mp hz with rfl | hz
          · exact hle
          · exact htrans _ _ _ hle (ht.1 z hz)
      · refine ih (fun ha hb => hlt ?_ hb) hr ht
        exact List.mem_cons_of_mem x (List.mem_append_right _ ha)
  | case4 x l r y l' r' hxy ih =>
      obtain ⟨hy, hl', hr'⟩ := ht
      have hle : le y x := (hlt List.mem_cons_self List.mem_cons_self).2
        (Bool.eq_false_iff.mpr hxy)
      rw [merge, if_neg hxy]
      refine heap_node (fun z hz => ?_)
        (fun z hz => hy z (List.mem_append_left _ hz)) ?_ hl'
      · rcases mem_merge.mp hz with hz | hz
        · rcases List.mem_cons.mp hz with rfl | hz
          · exact hle
          · exact htrans _ _ _ hle (hs.1 z hz)
        · exact hy z (List.mem_append_right _ hz)
      · refine ih (fun ha hb => hlt ha ?_) hs hr'
        exact List.mem_cons_of_mem y (List.mem_append_right _ hb)

-- =========================================================== erasing

variable [DecidableEq α]

theorem erase_of_notMem (h : x ∉ nodes t) : erase lt x t = t := by
  induction t with
  | nil => rfl
  | node y l r ihl ihr =>
      rw [nodes, List.mem_cons, List.mem_append, not_or, not_or] at h
      rw [erase, if_neg (Ne.symm h.1), ihl h.2.1, ihr h.2.2]

/-- Erasing takes the node out and no other. -/
theorem nodes_erase (hnodup : (nodes t).Nodup) :
    (nodes (erase lt x t)).Perm ((nodes t).erase x) := by
  induction t with
  | nil => rw [erase, nodes, List.erase_nil]
  | node y l r ihl ihr =>
      rw [nodes, List.nodup_cons, List.nodup_append] at hnodup
      obtain ⟨-, hl, hr, hdisjoint⟩ := hnodup
      by_cases hy : y = x
      · rw [erase, if_pos hy, nodes, hy, List.erase_cons_head]
        exact nodes_merge lt l r
      · rw [erase, if_neg hy, nodes, nodes,
          List.erase_cons_tail (by simpa using hy)]
        refine List.Perm.cons y ?_
        by_cases hin : x ∈ nodes l
        · have hout : x ∉ nodes r := fun hr' => hdisjoint x hin x hr' rfl
          rw [List.erase_append_left _ hin, erase_of_notMem hout]
          exact (ihl hl).append_right _
        · rw [List.erase_append_right _ hin, erase_of_notMem hin]
          exact (ihr hr).append_left _

theorem mem_erase (hnodup : (nodes t).Nodup) :
    y ∈ nodes (erase lt x t) ↔ y ≠ x ∧ y ∈ nodes t := by
  rw [(nodes_erase hnodup).mem_iff, hnodup.mem_erase_iff]

theorem nodup_erase (hnodup : (nodes t).Nodup) :
    (nodes (erase lt x t)).Nodup :=
  (nodes_erase hnodup).nodup_iff.mpr (hnodup.erase x)

/-- Erasing from a heap gives a heap. -/
theorem heap_erase (htrans : ∀ a b c, le a b → le b c → le a c)
    (hlt : Decides lt le t t) (hnodup : (nodes t).Nodup) (ht : Heap le t) :
    Heap le (erase lt x t) := by
  induction t with
  | nil => exact ht
  | node y l r ihl ihr =>
      obtain ⟨hy, hl, hr⟩ := ht
      have hsub : ∀ {z}, z ∈ nodes l ++ nodes r →
          z ∈ nodes (.node y l r) := fun hz => List.mem_cons_of_mem y hz
      have hltl : Decides lt le l l := fun ha hb =>
        hlt (hsub (List.mem_append_left _ ha)) (hsub (List.mem_append_left _ hb))
      have hltr : Decides lt le r r := fun ha hb => hlt
        (hsub (List.mem_append_right _ ha)) (hsub (List.mem_append_right _ hb))
      rw [nodes, List.nodup_cons, List.nodup_append] at hnodup
      obtain ⟨-, hnl, hnr, -⟩ := hnodup
      unfold erase
      split
      case isTrue =>
          exact heap_merge htrans l r (fun ha hb => hlt
            (hsub (List.mem_append_left _ ha))
            (hsub (List.mem_append_right _ hb))) hl hr
      case isFalse =>
          refine heap_node (fun z hz => ?_) (fun z hz => ?_) (ihl hltl hnl hl)
            (ihr hltr hnr hr)
          · exact hy z (List.mem_append_left _ ((mem_erase hnl).mp hz).2)
          · exact hy z (List.mem_append_right _ ((mem_erase hnr).mp hz).2)

end Ucore.SkewHeap
