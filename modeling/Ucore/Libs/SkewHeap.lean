/-
libs/skew_heap.h: a skew heap of entries that point at each other.

A pointer to an entry is `some` entry, `NULL` is `none`. The functions
recurse over pointers: a call that runs out of `fuel` gives `none`, and
the `_spec` theorems say how much fuel suffices. Each operation does to the
tree that the pointers form (`Root`) what its name in the theory of skew
heaps does.
-/
import Ucore.Lib.SkewHeap
import Mathlib.Logic.Function.Basic

namespace Ucore

open SkewHeap

variable {ν : Type} [DecidableEq ν]

-- ======================================================= the entries

/-- `struct skew_heap_entry`. -/
structure SkewHeapEntry (ν : Type) where
  parent : Option ν
  left : Option ν
  right : Option ν

/-- The entries in memory. -/
abbrev Pool (ν : Type) := ν → SkewHeapEntry ν

/-- `a->left = l; a->right = r`. -/
def Pool.setChildren (m : Pool ν) (a : ν) (l r : Option ν) : Pool ν :=
  Function.update m a { m a with left := l, right := r }

/-- `if (p) p->parent = a`. -/
def Pool.setParent (m : Pool ν) (p a : Option ν) : Pool ν :=
  match p with
  | none => m
  | some p => Function.update m p { m p with parent := a }

-- ===================================================== the functions

/-- `skew_heap_init`. -/
def skewHeapInit (m : Pool ν) (a : ν) : Pool ν :=
  Function.update m a { parent := none, left := none, right := none }

/-- `skew_heap_merge`. -/
def skewHeapMerge (comp : ν → ν → Int) : (fuel : Nat) → (a b : Option ν) →
    Pool ν → Option (Option ν × Pool ν)
  | 0, _, _, _ => none
  | _ + 1, none, b, m => some (b, m)
  | _ + 1, some a, none, m => some (some a, m)
  | fuel + 1, some a, some b, m =>
      if comp a b = -1 then
        let r := (m a).left
        match skewHeapMerge comp fuel (m a).right (some b) m with
        | none => none
        | some (l, m) =>
            some (some a, (m.setChildren a l r).setParent l (some a))
      else
        let r := (m b).left
        match skewHeapMerge comp fuel (some a) (m b).right m with
        | none => none
        | some (l, m) =>
            some (some b, (m.setChildren b l r).setParent l (some b))

/-- `skew_heap_insert`. -/
def skewHeapInsert (comp : ν → ν → Int) (fuel : Nat) (a : Option ν) (b : ν)
    (m : Pool ν) : Option (Option ν × Pool ν) :=
  skewHeapMerge comp fuel a (some b) (skewHeapInit m b)

/-- What `skew_heap_remove` does once `rep` is known: `rep` takes the place
of `b` under `p`. -/
def replaceChild (m : Pool ν) (p : Option ν) (b : ν) (rep : Option ν) :
    Pool ν :=
  let m := m.setParent rep p
  match p with
  | none => m
  | some p =>
      if (m p).left = some b then m.setChildren p rep (m p).right
      else m.setChildren p (m p).left rep

/-- `skew_heap_remove`. -/
def skewHeapRemove (comp : ν → ν → Int) (fuel : Nat) (a : Option ν) (b : ν)
    (m : Pool ν) : Option (Option ν × Pool ν) :=
  let p := (m b).parent
  match skewHeapMerge comp fuel (m b).left (m b).right m with
  | none => none
  | some (rep, m) =>
      let a := if p = none then rep else a
      some (a, replaceChild m p b rep)

-- ================================================= entries as a tree

variable {m m' : Pool ν} {a b p q rep : Option ν}
  {s t l r : BinaryTree ν} {x y : ν}

/-- The pointers from `p` on form a tree, and every node below its root has
the right parent. -/
def Shape (m : Pool ν) : Option ν → BinaryTree ν → Prop
  | p, .nil => p = none
  | p, .node x l r => p = some x
      ∧ (Shape m (m x).left l ∧ ∀ y, (m x).left = some y →
          (m y).parent = some x)
      ∧ (Shape m (m x).right r ∧ ∀ y, (m x).right = some y →
          (m y).parent = some x)

/-- The pointers form a tree of distinct entries, whose root has no
parent. -/
structure Root (m : Pool ν) (p : Option ν) (t : BinaryTree ν) : Prop where
  shape : Shape m p t
  nodup : (nodes t).Nodup
  parent : ∀ y, p = some y → (m y).parent = none

/-- The order `skew_heap_merge` sees. -/
def compLt (comp : ν → ν → Int) (a b : ν) : Bool := decide (comp a b = -1)

/-- Where the pointers lead to a node, that is the root of the tree. -/
theorem Shape.mem (h : Shape m (some x) t) : x ∈ nodes t := by
  cases t with
  | nil => cases h
  | node y l r =>
      cases h.1
      exact List.mem_cons_self

/-- A tree is made of the pointers of its nodes and, below the root, their
parents. -/
theorem Shape.congr (h : Shape m p t)
    (hsame : ∀ x ∈ nodes t, (m' x).left = (m x).left
      ∧ (m' x).right = (m x).right)
    (hparent : ∀ x ∈ nodes t, p ≠ some x →
      (m' x).parent = (m x).parent) (hnodup : (nodes t).Nodup) :
    Shape m' p t := by
  induction t generalizing p with
  | nil => exact h
  | node x l r ihl ihr =>
      obtain ⟨rfl, ⟨hl, hlp⟩, hr, hrp⟩ := h
      rw [nodes, List.nodup_cons, List.nodup_append] at hnodup
      obtain ⟨hx, hnl, hnr, -⟩ := hnodup
      have hpar : ∀ y ∈ nodes l ++ nodes r,
          (m' y).parent = (m y).parent := by
        intro y hy
        refine hparent y (List.mem_cons_of_mem x hy) ?_
        intro heq
        cases heq
        exact hx hy
      obtain ⟨hleft, hright⟩ := hsame x List.mem_cons_self
      refine ⟨rfl, ?_, ?_⟩
      · rw [hleft]
        refine ⟨ihl hl (fun y hy => hsame y (List.mem_cons_of_mem x
          (List.mem_append_left _ hy))) (fun y hy _ =>
            hpar y (List.mem_append_left _ hy)) hnl, fun y hy => ?_⟩
        rw [hy] at hl
        rw [hpar y (List.mem_append_left _ hl.mem)]
        exact hlp y hy
      · rw [hright]
        refine ⟨ihr hr (fun y hy => hsame y (List.mem_cons_of_mem x
          (List.mem_append_right _ hy))) (fun y hy _ =>
            hpar y (List.mem_append_right _ hy)) hnr, fun y hy => ?_⟩
        rw [hy] at hr
        rw [hpar y (List.mem_append_right _ hr.mem)]
        exact hrp y hy

/-- What lies outside the nodes does not matter. -/
theorem Shape.frame (h : Shape m p t) (hnodup : (nodes t).Nodup)
    (hsame : ∀ x ∈ nodes t, m' x = m x) : Shape m' p t :=
  h.congr (fun x hx => by rw [hsame x hx]; exact ⟨rfl, rfl⟩)
    (fun x hx _ => by rw [hsame x hx]) hnodup

-- ============================================= stores to the entries

theorem setChildren_self {l r : Option ν} : (m.setChildren x l r) x
    = { m x with left := l, right := r } :=
  Function.update_self x _ _

theorem setChildren_ne {l r : Option ν} (h : y ≠ x) :
    (m.setChildren x l r) y = m y :=
  Function.update_of_ne h _ _

theorem setParent_left : (m.setParent p q y).left = (m y).left := by
  cases p with
  | none => rfl
  | some p =>
      show (Function.update m p { m p with parent := q } y).left = _
      by_cases h : y = p
      · rw [h, Function.update_self]
      · rw [Function.update_of_ne h]

theorem setParent_right : (m.setParent p q y).right = (m y).right := by
  cases p with
  | none => rfl
  | some p =>
      show (Function.update m p { m p with parent := q } y).right = _
      by_cases h : y = p
      · rw [h, Function.update_self]
      · rw [Function.update_of_ne h]

theorem setParent_self : (m.setParent (some y) q y).parent = q := by
  show (Function.update m y _ y).parent = q
  rw [Function.update_self]

theorem setParent_ne (h : p ≠ some y) : m.setParent p q y = m y := by
  cases p with
  | none => rfl
  | some p =>
      refine Function.update_of_ne ?_ _ _
      rintro rfl
      exact h rfl

-- =========================================================== merging

/-- A tree `u` becomes the left child of an entry, whose left child becomes
the right one. -/
theorem Shape.attach {u : BinaryTree ν} (hu : Shape m' p u)
    (hl : Shape m q l) (hlp : ∀ y, q = some y → (m y).parent = some x)
    (hnodup : (x :: (nodes u ++ nodes l)).Nodup)
    (hsame : ∀ y, y ∉ nodes u → m' y = m y) :
    let m₂ := (m'.setChildren x p q).setParent p (some x)
    Shape m₂ (some x) (.node x u l)
      ∧ (∀ y, y ≠ x → y ∉ nodes u → m₂ y = m y)
      ∧ (m₂ x).parent = (m x).parent := by
  intro m₂
  rw [List.nodup_cons, List.mem_append, not_or, List.nodup_append] at hnodup
  obtain ⟨⟨hxu, hxl⟩, hnu, hnl, hdisjoint⟩ := hnodup
  have hroot : ∀ y, y ∉ nodes u → p ≠ some y := by
    intro y hy heq
    rw [heq] at hu
    exact hy hu.mem
  have hframe : ∀ y, y ≠ x → y ∉ nodes u → m₂ y = m y := by
    intro y hne hy
    exact (setParent_ne (hroot y hy)).trans
      ((setChildren_ne hne).trans (hsame y hy))
  have hout : ∀ y ∈ nodes l, m₂ y = m y := by
    intro y hy
    refine hframe y ?_ fun hyu => hdisjoint y hyu y hy rfl
    rintro rfl
    exact hxl hy
  have hx : m₂ x = { m x with left := p, right := q } := by
    refine (setParent_ne (hroot x hxu)).trans ?_
    rw [setChildren_self, hsame x hxu]
  have hchild : ∀ y ∈ nodes u, y ≠ x := by
    rintro y hy rfl
    exact hxu hy
  refine ⟨⟨rfl, ?_, ?_⟩, hframe, ?_⟩
  · rw [hx]
    refine ⟨hu.congr (fun y hy => ?_) (fun y hy hne => ?_) hnu, ?_⟩
    · rw [setParent_left, setParent_right, setChildren_ne (hchild y hy)]
      exact ⟨rfl, rfl⟩
    · exact congrArg SkewHeapEntry.parent
        ((setParent_ne hne).trans (setChildren_ne (hchild y hy)))
    · rintro y rfl
      exact setParent_self
  · rw [hx]
    refine ⟨hl.frame hnl hout, fun y hy => ?_⟩
    have hyl : y ∈ nodes l := by
      have hl' : Shape m (some y) l := hy ▸ hl
      exact hl'.mem
    rw [hout y hyl]
    exact hlp y hy
  · rw [hx]

/-- `skew_heap_merge` merges. The root keeps its parent field. -/
theorem skewHeapMerge_spec (comp : ν → ν → Int) (fuel : Nat) :
    ∀ {m : Pool ν} {a b : Option ν} {s t : BinaryTree ν},
    Shape m a s → Shape m b t →
    (nodes s ++ nodes t).Nodup → s.numNodes + t.numNodes < fuel →
    ∃ p m', skewHeapMerge comp fuel a b m = some (p, m')
      ∧ Shape m' p (merge (compLt comp) s t)
      ∧ (∀ y, y ∉ nodes s ++ nodes t → m' y = m y)
      ∧ (∀ y, p = some y → (m' y).parent = (m y).parent)
      ∧ (p = a ∨ p = b) := by
  induction fuel with
  | zero =>
      intro m a b s t _ _ _ hfuel
      omega
  | succ fuel ih =>
      intro m a b s t hs ht hnodup hfuel
      cases s with
      | nil =>
          cases hs
          rw [merge]
          exact ⟨b, m, rfl, ht, fun _ _ => rfl, fun _ _ => rfl, Or.inr rfl⟩
      | node x l r =>
          cases t with
          | nil =>
              cases ht
              obtain rfl := hs.1
              rw [merge]
              exact ⟨some x, m, rfl, hs, fun _ _ => rfl, fun _ _ => rfl,
                Or.inl rfl⟩
          | node y l' r' =>
              obtain rfl := hs.1
              obtain rfl := ht.1
              rw [BinaryTree.numNodes, BinaryTree.numNodes] at hfuel
              have hlt : compLt comp x y = true ↔ comp x y = -1 :=
                decide_eq_true_iff
              rw [skewHeapMerge, merge]
              by_cases hcomp : comp x y = -1
              · rw [if_pos hcomp, if_pos (hlt.mpr hcomp)]
                obtain ⟨-, ⟨hl, hlp⟩, hr, -⟩ := hs
                have hperm : (nodes (.node x l r)
                    ++ nodes (.node y l' r')).Perm (x :: (nodes r
                    ++ nodes (.node y l' r') ++ nodes l)) := by
                  rw [nodes, List.cons_append, List.append_assoc]
                  exact List.perm_append_comm.cons x
                have hnd := hperm.nodup_iff.mp hnodup
                obtain ⟨p, m₁, hrun, hshape, hframe, -, -⟩ := ih hr ht
                  (List.nodup_append.mp (List.nodup_cons.mp hnd).2).1
                  (by rw [BinaryTree.numNodes]; omega)
                have hmerged := nodes_merge (compLt comp) r (.node y l' r')
                obtain ⟨hnode, hrest, hparent⟩ := hshape.attach hl hlp
                  (((hmerged.append_right (nodes l)).cons x).nodup_iff.mpr hnd)
                  fun z hz => hframe z fun hz' =>
                    hz (hmerged.mem_iff.mpr hz')
                rw [hrun]
                refine ⟨_, _, rfl, hnode, fun z hz => ?_, ?_, Or.inl rfl⟩
                · rw [hperm.mem_iff, List.mem_cons, not_or, List.mem_append,
                    not_or] at hz
                  exact hrest z hz.1 fun hz' =>
                    hz.2.1 (hmerged.mem_iff.mp hz')
                · rintro z hz
                  cases hz
                  exact hparent
              · rw [if_neg hcomp, if_neg fun h => hcomp (hlt.mp h)]
                obtain ⟨-, ⟨hl, hlp⟩, hr, -⟩ := ht
                have hperm : (nodes (.node x l r)
                    ++ nodes (.node y l' r')).Perm (y :: (nodes (.node x l r)
                    ++ nodes r' ++ nodes l')) := by
                  refine List.perm_middle.trans ?_
                  rw [List.append_assoc]
                  exact (List.perm_append_comm.append_left _).cons y
                have hnd := hperm.nodup_iff.mp hnodup
                obtain ⟨p, m₁, hrun, hshape, hframe, -, -⟩ := ih hs hr
                  (List.nodup_append.mp (List.nodup_cons.mp hnd).2).1
                  (by rw [BinaryTree.numNodes]; omega)
                have hmerged := nodes_merge (compLt comp) (.node x l r) r'
                obtain ⟨hnode, hrest, hparent⟩ := hshape.attach hl hlp
                  (((hmerged.append_right (nodes l')).cons y).nodup_iff.mpr
                    hnd) fun z hz => hframe z fun hz' =>
                      hz (hmerged.mem_iff.mpr hz')
                rw [hrun]
                refine ⟨_, _, rfl, hnode, fun z hz => ?_, ?_, Or.inr rfl⟩
                · rw [hperm.mem_iff, List.mem_cons, not_or, List.mem_append,
                    not_or] at hz
                  exact hrest z hz.1 fun hz' =>
                    hz.2.1 (hmerged.mem_iff.mp hz')
                · rintro z hz
                  cases hz
                  exact hparent

/-- More fuel changes nothing. -/
theorem skewHeapMerge_more {comp : ν → ν → Int} {fuel : Nat}
    {res : Option ν × Pool ν} (hrun : skewHeapMerge comp fuel a b m = some res)
    {fuel' : Nat} (hle : fuel ≤ fuel') :
    skewHeapMerge comp fuel' a b m = some res := by
  induction fuel generalizing fuel' a b m res with
  | zero => cases hrun
  | succ fuel ih =>
      obtain ⟨fuel', rfl⟩ : ∃ k, fuel' = k + 1 := ⟨fuel' - 1, by omega⟩
      have hle' : fuel ≤ fuel' := by omega
      cases a with
      | none => exact hrun
      | some x =>
          cases b with
          | none => exact hrun
          | some y =>
              rw [skewHeapMerge] at hrun ⊢
              split
              case isTrue hcomp =>
                  rw [if_pos hcomp] at hrun
                  dsimp only at hrun ⊢
                  cases hrec : skewHeapMerge comp fuel (m x).right (some y) m
                    with
                  | none => rw [hrec] at hrun; cases hrun
                  | some r => rwa [ih hrec hle', ← hrec]
              case isFalse hcomp =>
                  rw [if_neg hcomp] at hrun
                  dsimp only at hrun ⊢
                  cases hrec : skewHeapMerge comp fuel (some x) (m y).right m
                    with
                  | none => rw [hrec] at hrun; cases hrun
                  | some r => rwa [ih hrec hle', ← hrec]

/-- `skew_heap_insert` of an entry that is not in the heap. -/
theorem skewHeapInsert_spec {fuel : Nat} (h : Root m a t)
    (comp : ν → ν → Int) (hx : x ∉ nodes t)
    (hfuel : t.numNodes + 1 < fuel) :
    ∃ p m', skewHeapInsert comp fuel a x m = some (p, m')
      ∧ Root m' p (merge (compLt comp) t (.node x .nil .nil))
      ∧ ∀ y, y ≠ x → y ∉ nodes t → m' y = m y := by
  have hne : ∀ y ∈ nodes t, y ≠ x := by
    rintro y hy rfl
    exact hx hy
  have hinit : ∀ y, y ≠ x → skewHeapInit m x y = m y := fun y hy =>
    Function.update_of_ne hy _ _
  have hself : skewHeapInit m x x
      = { parent := none, left := none, right := none } :=
    Function.update_self x _ _
  have hsingle : Shape (skewHeapInit m x) (some x) (.node x .nil .nil) := by
    refine ⟨rfl, ?_, ?_⟩
    · rw [hself]
      exact ⟨rfl, fun _ h => by cases h⟩
    · rw [hself]
      exact ⟨rfl, fun _ h => by cases h⟩
  have hold : Shape (skewHeapInit m x) a t :=
    h.shape.frame h.nodup fun y hy => hinit y (hne y hy)
  have hnodup : (nodes t ++ nodes (.node x .nil .nil)).Nodup := by
    refine List.nodup_append.mpr ⟨h.nodup, List.pairwise_singleton _ x, ?_⟩
    intro y hy z hz
    rw [List.mem_singleton.mp hz]
    exact hne y hy
  obtain ⟨p, m', hrun, hshape, hframe, hparent, hp⟩ := skewHeapMerge_spec
    comp fuel hold hsingle hnodup (by
      rw [BinaryTree.numNodes, BinaryTree.numNodes]
      omega)
  refine ⟨p, m', hrun, ⟨hshape, ?_, ?_⟩, ?_⟩
  · exact (nodes_merge _ _ _).nodup_iff.mpr hnodup
  · intro y hy
    rw [hparent y hy]
    rcases hp with hp | hp
    · rw [hp] at hy
      have hyt : y ∈ nodes t := by
        have hshape := hy ▸ h.shape
        exact hshape.mem
      rw [hinit y (hne y hyt)]
      exact h.parent y hy
    · rw [hp] at hy
      cases hy
      rw [hself]
  · intro y hy hyt
    rw [hframe y, hinit y hy]
    rw [List.mem_append, not_or]
    exact ⟨hyt, fun h => hy (List.mem_singleton.mp h)⟩

-- ========================================================== removing

theorem replaceChild_ne (h : y ≠ x) (b : ν) :
    replaceChild m (some x) b rep y = m.setParent rep (some x) y := by
  unfold replaceChild
  dsimp only
  split <;> exact setChildren_ne h

theorem replaceChild_self (h : rep ≠ some x) (b : ν) :
    replaceChild m (some x) b rep x
      = if (m x).left = some b then { m x with left := rep }
        else { m x with right := rep } := by
  have hx : m.setParent rep (some x) x = m x := setParent_ne h
  unfold replaceChild
  dsimp only
  rw [hx]
  split
  case isTrue => rw [setChildren_self, hx]
  case isFalse => rw [setChildren_self, hx]

/-- The tree that takes the place of an entry. -/
theorem Shape.reparent (h : Shape m rep t) (hnodup : (nodes t).Nodup)
    (hx : x ∉ nodes t) (b : ν) :
    Shape (replaceChild m (some x) b rep) rep t ∧ ∀ y, rep = some y →
      (replaceChild m (some x) b rep y).parent = some x := by
  have hne : ∀ y ∈ nodes t, y ≠ x := by
    rintro y hy rfl
    exact hx hy
  refine ⟨h.congr (fun y hy => ?_) (fun y hy hroot => ?_) hnodup, ?_⟩
  · rw [replaceChild_ne (hne y hy), setParent_left, setParent_right]
    exact ⟨rfl, rfl⟩
  · rw [replaceChild_ne (hne y hy), setParent_ne hroot]
  · rintro y rfl
    rw [replaceChild_ne (hne y h.mem), setParent_self]

/-- What `skew_heap_remove` does to a child of `x`. -/
theorem Shape.removeChild {fuel : Nat} (h : Shape m (some y) t)
    (comp : ν → ν → Int) (hnodup : (nodes t).Nodup) (hx : x ∉ nodes t)
    (hfuel : t.numNodes < fuel) :
    ∃ rep m₁, skewHeapMerge comp fuel (m y).left (m y).right m
        = some (rep, m₁)
      ∧ Shape (replaceChild m₁ (some x) y rep) rep
        (erase (compLt comp) y t)
      ∧ (∀ z, rep = some z →
        (replaceChild m₁ (some x) y rep z).parent = some x)
      ∧ (∀ z, z ≠ x → z ∉ nodes t →
        replaceChild m₁ (some x) y rep z = m z)
      ∧ replaceChild m₁ (some x) y rep x
        = if (m x).left = some y then { m x with left := rep }
          else { m x with right := rep } := by
  cases t with
  | nil => cases h
  | node y' l r =>
      obtain ⟨heq, ⟨hl, -⟩, hr, -⟩ := h
      cases heq
      rw [nodes, List.nodup_cons] at hnodup
      obtain ⟨hy, hnd⟩ := hnodup
      rw [nodes, List.mem_cons, not_or] at hx
      obtain ⟨hxy, hx⟩ := hx
      rw [BinaryTree.numNodes] at hfuel
      obtain ⟨rep, m₁, hrun, hshape, hframe, -⟩ :=
        skewHeapMerge_spec comp fuel hl hr hnd (by omega)
      have hmerged := nodes_merge (compLt comp) l r
      have hxm : x ∉ nodes (merge (compLt comp) l r) := fun hin =>
        hx (hmerged.mem_iff.mp hin)
      have hrep : ∀ z, z ∉ nodes l ++ nodes r → rep ≠ some z := by
        rintro z hz rfl
        exact hz (hmerged.mem_iff.mp hshape.mem)
      obtain ⟨hshape', hparent⟩ :=
        hshape.reparent (hmerged.nodup_iff.mpr hnd) hxm y
      rw [erase, if_pos rfl]
      refine ⟨rep, m₁, hrun, hshape', hparent, fun z hzx hz => ?_, ?_⟩
      · rw [nodes, List.mem_cons, not_or] at hz
        rw [replaceChild_ne hzx, setParent_ne (hrep z hz.2), hframe z hz.2]
      · rw [replaceChild_self (hrep x hx), hframe x hx]

/-- What `skew_heap_remove` does below the root: the merged children take
the place of the entry under its parent. -/
theorem Shape.remove {fuel : Nat} (h : Shape m q t)
    (comp : ν → ν → Int) (hnodup : (nodes t).Nodup) (hy : y ∈ nodes t)
    (hroot : q ≠ some y) (hfuel : t.numNodes < fuel) :
    ∃ p rep m₁, (m y).parent = some p ∧ p ∈ nodes t
      ∧ skewHeapMerge comp fuel (m y).left (m y).right m = some (rep, m₁)
      ∧ Shape (replaceChild m₁ (some p) y rep) q (erase (compLt comp) y t)
      ∧ (∀ z, z ∉ nodes t → replaceChild m₁ (some p) y rep z = m z)
      ∧ ∀ z, q = some z →
        (replaceChild m₁ (some p) y rep z).parent = (m z).parent := by
  induction t generalizing q with
  | nil => cases hy
  | node x l r ihl ihr =>
      obtain ⟨rfl, ⟨hl, hlp⟩, hr, hrp⟩ := h
      have hxy : x ≠ y := fun heq => hroot (congrArg some heq)
      have hnd := hnodup
      rw [nodes, List.nodup_cons, List.mem_append, not_or, List.nodup_append]
        at hnd
      obtain ⟨⟨hxl, hxr⟩, hnl, hnr, hdisjoint⟩ := hnd
      rw [BinaryTree.numNodes] at hfuel
      rw [erase, if_neg hxy]
      rcases List.mem_append.mp
          ((List.mem_cons.mp hy).resolve_left (Ne.symm hxy)) with hyl | hyr
      · -- on the left: nothing on the right changes
        have hyr : y ∉ nodes r := fun hin => hdisjoint y hyl y hin rfl
        rw [erase_of_notMem hyr]
        by_cases hchild : (m x).left = some y
        · have hp := hlp y hchild
          rw [hchild] at hl
          obtain ⟨rep, m₁, hrun, hshape, hparent, hframe, hx⟩ :=
            hl.removeChild comp hnl hxl (show _ < fuel by omega)
          rw [if_pos hchild] at hx
          have hright : ∀ z ∈ nodes r,
              replaceChild m₁ (some x) y rep z = m z := by
            intro z hz
            refine hframe z ?_ fun hzl => hdisjoint z hzl z hz rfl
            rintro rfl
            exact hxr hz
          refine ⟨x, rep, m₁, hp, List.mem_cons_self, hrun,
            ⟨rfl, ?_, ?_⟩, ?_, ?_⟩
          · rw [hx]
            exact ⟨hshape, hparent⟩
          · rw [hx]
            refine ⟨hr.frame hnr hright, fun z hz => ?_⟩
            have hzr := (hz ▸ hr : Shape m (some z) r).mem
            rw [hright z hzr]
            exact hrp z hz
          · intro z hz
            rw [nodes, List.mem_cons, not_or, List.mem_append, not_or] at hz
            exact hframe z hz.1 hz.2.1
          · rintro z hz
            cases hz
            rw [hx]
        · obtain ⟨p, rep, m₁, hp, hpin, hrun, hshape, hframe, hparent⟩ :=
            ihl hl hnl hyl hchild (by omega)
          have hm₂ : ∀ z, z ∉ nodes l →
            replaceChild m₁ (some p) y rep z = m z := hframe
          have hright : ∀ z ∈ nodes r,
              replaceChild m₁ (some p) y rep z = m z := fun z hz =>
            hframe z fun hzl => hdisjoint z hzl z hz rfl
          refine ⟨p, rep, m₁, hp, List.mem_cons_of_mem x
            (List.mem_append_left _ hpin), hrun, ⟨rfl, ?_, ?_⟩, ?_, ?_⟩
          · rw [hframe x hxl]
            exact ⟨hshape, fun z hz => (hparent z hz).trans (hlp z hz)⟩
          · rw [hframe x hxl]
            refine ⟨hr.frame hnr hright, fun z hz => ?_⟩
            have hzr := (hz ▸ hr : Shape m (some z) r).mem
            rw [hright z hzr]
            exact hrp z hz
          · intro z hz
            exact hframe z fun hzl => hz (List.mem_cons_of_mem x
              (List.mem_append_left _ hzl))
          · rintro z hz
            cases hz
            rw [hframe x hxl]
      · -- on the right: nothing on the left changes
        have hyl : y ∉ nodes l := fun hin => hdisjoint y hin y hyr rfl
        have hleft : (m x).left ≠ some y := by
          intro heq
          rw [heq] at hl
          exact hyl hl.mem
        rw [erase_of_notMem hyl]
        by_cases hchild : (m x).right = some y
        · have hp := hrp y hchild
          rw [hchild] at hr
          obtain ⟨rep, m₁, hrun, hshape, hparent, hframe, hx⟩ :=
            hr.removeChild comp hnr hxr (show _ < fuel by omega)
          rw [if_neg hleft] at hx
          have hkept : ∀ z ∈ nodes l,
              replaceChild m₁ (some x) y rep z = m z := by
            intro z hz
            refine hframe z ?_ fun hzr => hdisjoint z hz z hzr rfl
            rintro rfl
            exact hxl hz
          refine ⟨x, rep, m₁, hp, List.mem_cons_self, hrun,
            ⟨rfl, ?_, ?_⟩, ?_, ?_⟩
          · rw [hx]
            refine ⟨hl.frame hnl hkept, fun z hz => ?_⟩
            have hzl := (hz ▸ hl : Shape m (some z) l).mem
            rw [hkept z hzl]
            exact hlp z hz
          · rw [hx]
            exact ⟨hshape, hparent⟩
          · intro z hz
            rw [nodes, List.mem_cons, not_or, List.mem_append, not_or] at hz
            exact hframe z hz.1 hz.2.2
          · rintro z hz
            cases hz
            rw [hx]
        · obtain ⟨p, rep, m₁, hp, hpin, hrun, hshape, hframe, hparent⟩ :=
            ihr hr hnr hyr hchild (by omega)
          have hkept : ∀ z ∈ nodes l,
              replaceChild m₁ (some p) y rep z = m z := fun z hz =>
            hframe z fun hzr => hdisjoint z hz z hzr rfl
          refine ⟨p, rep, m₁, hp, List.mem_cons_of_mem x
            (List.mem_append_right _ hpin), hrun, ⟨rfl, ?_, ?_⟩, ?_, ?_⟩
          · rw [hframe x hxr]
            refine ⟨hl.frame hnl hkept, fun z hz => ?_⟩
            have hzl := (hz ▸ hl : Shape m (some z) l).mem
            rw [hkept z hzl]
            exact hlp z hz
          · rw [hframe x hxr]
            exact ⟨hshape, fun z hz => (hparent z hz).trans (hrp z hz)⟩
          · intro z hz
            exact hframe z fun hzr => hz (List.mem_cons_of_mem x
              (List.mem_append_right _ hzr))
          · rintro z hz
            cases hz
            rw [hframe x hxr]

/-- `skew_heap_remove` of an entry of the heap, the root included. -/
theorem skewHeapRemove_spec {fuel : Nat} (h : Root m a t)
    (comp : ν → ν → Int) (hy : y ∈ nodes t) (hfuel : t.numNodes < fuel) :
    ∃ p m', skewHeapRemove comp fuel a y m = some (p, m')
      ∧ Root m' p (erase (compLt comp) y t)
      ∧ ∀ z, z ∉ nodes t → m' z = m z := by
  unfold skewHeapRemove
  by_cases hroot : a = some y
  · -- the root has no parent, and its children are merged
    have hp := h.parent y hroot
    have hshape := h.shape
    have hnodup := h.nodup
    rw [hroot] at hshape
    cases t with
    | nil => cases hshape
    | node y' l r =>
        obtain ⟨heq, ⟨hl, -⟩, hr, -⟩ := hshape
        cases heq
        rw [nodes, List.nodup_cons] at hnodup
        rw [BinaryTree.numNodes] at hfuel
        obtain ⟨rep, m₁, hrun, hshape, hframe, -⟩ :=
          skewHeapMerge_spec comp fuel hl hr hnodup.2 (by omega)
        have hmerged := nodes_merge (compLt comp) l r
        have hnd := hmerged.nodup_iff.mpr hnodup.2
        dsimp only
        rw [hp, hrun, erase, if_pos rfl]
        refine ⟨_, _, rfl, ⟨?_, hnd, ?_⟩, fun z hz => ?_⟩
        · refine hshape.congr (fun z _ => ?_) (fun z _ hne => ?_) hnd
          · exact ⟨setParent_left, setParent_right⟩
          · exact congrArg SkewHeapEntry.parent (setParent_ne hne)
        · rintro z rfl
          exact setParent_self
        · rw [nodes, List.mem_cons, not_or] at hz
          refine (setParent_ne ?_).trans (hframe z hz.2)
          rintro rfl
          exact hz.2 (hmerged.mem_iff.mp hshape.mem)
  · obtain ⟨p, rep, m₁, hp, -, hrun, hshape, hframe, hparent⟩ :=
      h.shape.remove comp h.nodup hy hroot hfuel
    dsimp only
    rw [hrun, hp]
    refine ⟨_, _, rfl, ⟨hshape, nodup_erase h.nodup, fun z hz => ?_⟩, hframe⟩
    rw [hparent z hz]
    exact h.parent z hz

-- ================================================= calls that return

/-- Whatever fuel an insertion returned with. -/
theorem skewHeapInsert_run {comp : ν → ν → Int} {fuel : Nat}
    (h : Root m a t) (hx : x ∉ nodes t)
    (hrun : skewHeapInsert comp fuel a x m = some (p, m')) :
    Root m' p (merge (compLt comp) t (.node x .nil .nil))
      ∧ ∀ y, y ≠ x → y ∉ nodes t → m' y = m y := by
  obtain ⟨p', m'', hrun', hspec⟩ := skewHeapInsert_spec h comp hx
    (show t.numNodes + 1 < max fuel (t.numNodes + 2) by omega)
  have hmore : skewHeapInsert comp (max fuel (t.numNodes + 2)) a x m
      = some (p, m') := skewHeapMerge_more hrun (Nat.le_max_left _ _)
  rw [hrun'] at hmore
  cases hmore
  exact hspec

/-- Whatever fuel a removal returned with. -/
theorem skewHeapRemove_run {comp : ν → ν → Int} {fuel : Nat}
    (h : Root m a t) (hy : y ∈ nodes t)
    (hrun : skewHeapRemove comp fuel a y m = some (p, m')) :
    Root m' p (erase (compLt comp) y t)
      ∧ ∀ z, z ∉ nodes t → m' z = m z := by
  obtain ⟨p', m'', hrun', hspec⟩ := skewHeapRemove_spec h comp hy
    (show t.numNodes < max fuel (t.numNodes + 1) by omega)
  have hmore : skewHeapRemove comp (max fuel (t.numNodes + 1)) a y m
      = some (p, m') := by
    unfold skewHeapRemove at hrun ⊢
    dsimp only at hrun ⊢
    cases hmerge : skewHeapMerge comp fuel (m y).left (m y).right m with
    | none => rw [hmerge] at hrun; cases hrun
    | some r =>
        rwa [skewHeapMerge_more hmerge (Nat.le_max_left _ _), ← hmerge]
  rw [hrun'] at hmore
  cases hmore
  exact hspec

end Ucore
