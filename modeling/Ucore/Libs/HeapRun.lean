/-
A skew heap over its whole history.

Entries are inserted and removed in any order, and the key of the root may
be raised just before the root is removed, as the stride scheduler does. The
order that `comp` sees changes with the keys, but only at an entry that is
being inserted or removed, so the rest of the heap stays ordered.
-/
import Ucore.Lib.Run
import Ucore.Libs.SkewHeap
import Mathlib.Order.Defs.PartialOrder
import Mathlib.Order.Nat

namespace Ucore

open SkewHeap

variable {ν κ : Type} [DecidableEq ν]

-- ========================================================= the calls

/-- The entries, the root that is kept, the keys, and the entries that were
inserted and not yet removed. -/
structure HeapWorld (ν κ : Type) where
  pool : Pool ν
  root : Option ν
  key : ν → κ
  held : List ν

/-- A call: an insertion of an entry with a key, a removal, or a removal of
the root after its key was raised. -/
inductive HeapOp (ν κ : Type) where
  | insert (b : ν) (k : κ)
  | remove (b : ν)
  | raise (b : ν) (k : κ)

/-- The keys that a call sees. -/
def HeapOp.keys (key : ν → κ) : HeapOp ν κ → ν → κ
  | .insert b k => Function.update key b k
  | .remove _ => key
  | .raise b k => Function.update key b k

/-- The entries in the heap after a call. -/
def HeapOp.holds (held : List ν) : HeapOp ν κ → List ν
  | .insert b _ => b :: held
  | .remove b => held.erase b
  | .raise b _ => held.erase b

/-- `comp`, of the keys of two entries. -/
def compOf (comp : κ → κ → Int) (key : ν → κ) (a b : ν) : Int :=
  comp (key a) (key b)

/-- The call. -/
def HeapOp.call (comp : κ → κ → Int) (fuel : Nat) (w : HeapWorld ν κ)
    (op : HeapOp ν κ) : Option (Option ν × Pool ν) :=
  match op with
  | .insert b _ =>
      skewHeapInsert (compOf comp (op.keys w.key)) fuel w.root b w.pool
  | .remove b =>
      skewHeapRemove (compOf comp (op.keys w.key)) fuel w.root b w.pool
  | .raise b _ =>
      skewHeapRemove (compOf comp (op.keys w.key)) fuel w.root b w.pool

/-- Callers insert entries that are not in the heap and remove entries that
are. -/
def HeapOp.Allowed [Preorder κ] (w : HeapWorld ν κ) : HeapOp ν κ → Prop
  | .insert b _ => b ∉ w.held
  | .remove b => b ∈ w.held
  | .raise b k => w.root = some b ∧ w.key b ≤ k

instance [Preorder κ] [DecidableLE κ] (w : HeapWorld ν κ) :
    (op : HeapOp ν κ) → Decidable (op.Allowed w)
  | .insert b _ => inferInstanceAs (Decidable (b ∉ w.held))
  | .remove b => inferInstanceAs (Decidable (b ∈ w.held))
  | .raise b k => inferInstanceAs (Decidable (w.root = some b ∧ w.key b ≤ k))

/-- A call that returns. -/
inductive HeapStep [Preorder κ] (comp : κ → κ → Int) :
    HeapWorld ν κ → HeapOp ν κ → HeapWorld ν κ → Prop
  | call {w : HeapWorld ν κ} {op : HeapOp ν κ} {fuel : Nat}
      {root : Option ν} {pool : Pool ν} (hallowed : op.Allowed w)
      (hcall : op.call comp fuel w = some (root, pool)) :
      HeapStep comp w op
        { pool, root, key := op.keys w.key, held := op.holds w.held }

/-- An empty heap. -/
def HeapWorld.empty (pool : Pool ν) (key : ν → κ) : HeapWorld ν κ :=
  { pool, root := none, key, held := [] }

/-- `comp` compares keys in some total preorder. -/
def Compares [Preorder κ] (comp : κ → κ → Int) : Prop :=
  ∀ a b, (comp a b = -1 → a ≤ b) ∧ (comp a b ≠ -1 → b ≤ a)

-- ===================================================== the invariant

/-- The pointers form a tree of the entries that are in the heap, with no
entry above one with a smaller key. -/
def HeapWorld.Sound [Preorder κ] (w : HeapWorld ν κ) : Prop :=
  ∃ t, Root w.pool w.root t ∧ (nodes t).Perm w.held
    ∧ Heap (fun a b => w.key a ≤ w.key b) t

variable [Preorder κ] {comp : κ → κ → Int} {w w' : HeapWorld ν κ}
  {op : HeapOp ν κ} {ops : List (HeapOp ν κ)} {key : ν → κ}
  {s t : BinaryTree ν} {b x y : ν} {k : κ}

theorem Compares.decides (h : Compares comp) (key : ν → κ) :
    Decides (compLt (compOf comp key)) (fun a b => key a ≤ key b) s t := by
  intro x y _ _
  refine ⟨fun hlt => ?_, fun hlt => ?_⟩
  · exact (h (key x) (key y)).1 (of_decide_eq_true hlt)
  · exact (h (key x) (key y)).2 (of_decide_eq_false hlt)

/-- The key of an entry that is not in a heap does not matter. -/
theorem heap_update (hb : b ∉ nodes t)
    (h : Heap (fun a b => key a ≤ key b) t) :
    Heap (fun x y => Function.update key b k x
      ≤ Function.update key b k y) t := by
  apply heap_mono h
  intro x y hx hy hle
  have hxb : x ≠ b := fun heq => hb (heq ▸ hx)
  have hyb : y ≠ b := fun heq => hb (heq ▸ hy)
  rwa [Function.update_of_ne hxb, Function.update_of_ne hyb]

/-- An insertion into a heap. -/
theorem heap_insert (hcomp : Compares comp) (hb : b ∉ nodes t)
    (h : Heap (fun a b => key a ≤ key b) t) :
    Heap (fun x y => Function.update key b k x ≤ Function.update key b k y)
      (merge (compLt (compOf comp (Function.update key b k))) t
        (.node b .nil .nil)) := by
  apply heap_merge
  · exact fun _ _ _ => le_trans
  · exact hcomp.decides (Function.update key b k)
  · exact heap_update hb h
  · exact heap_node (fun _ hy => by cases hy) (fun _ hy => by cases hy)
      trivial trivial

/-- The removal of the root from a heap, whatever its key has become. -/
theorem heap_raise {l r : BinaryTree ν} (hcomp : Compares comp)
    (hnodup : (nodes (.node b l r)).Nodup)
    (h : Heap (fun a b => key a ≤ key b) (.node b l r)) :
    Heap (fun x y => Function.update key b k x ≤ Function.update key b k y)
      (erase (compLt (compOf comp (Function.update key b k))) b
        (.node b l r)) := by
  rw [nodes, List.nodup_cons, List.mem_append, not_or] at hnodup
  obtain ⟨⟨hbl, hbr⟩, -⟩ := hnodup
  obtain ⟨-, hl, hr⟩ := h
  rw [erase, if_pos rfl]
  apply heap_merge
  · exact fun _ _ _ => le_trans
  · exact hcomp.decides (Function.update key b k)
  · exact heap_update hbl hl
  · exact heap_update hbr hr

/-- A call on a sound heap keeps it sound. -/
theorem HeapWorld.Sound.step (hcomp : Compares comp) (h : w.Sound)
    (hstep : HeapStep comp w op w') : w'.Sound := by
  obtain ⟨t, hroot, hperm, hheap⟩ := h
  cases hstep with
  | @call fuel root pool hallowed hcall =>
      have herase : ∀ {b : ν} {key : ν → κ}, b ∈ nodes t →
          (nodes (erase (compLt (compOf comp key)) b t)).Perm
            (w.held.erase b) :=
        fun _ => (nodes_erase hroot.nodup).trans (hperm.erase _)
      cases op with
      | insert b k =>
          have hb : b ∉ nodes t := fun hin =>
            hallowed (hperm.mem_iff.1 hin)
          obtain ⟨hroot', -⟩ := skewHeapInsert_run hroot hb hcall
          refine ⟨_, hroot', ?_, heap_insert hcomp hb hheap⟩
          apply (nodes_merge _ _ _).trans
          apply List.perm_append_comm.trans
          exact hperm.cons b
      | remove b =>
          have hb : b ∈ nodes t := hperm.mem_iff.2 hallowed
          obtain ⟨hroot', -⟩ := skewHeapRemove_run hroot hb hcall
          refine ⟨_, hroot', herase hb, ?_⟩
          apply heap_erase
          · exact fun _ _ _ => le_trans
          · exact hcomp.decides w.key
          · exact hroot.nodup
          · exact hheap
      | raise b k =>
          have hshape := hroot.shape
          rw [hallowed.1] at hshape
          have hb : b ∈ nodes t := hshape.mem
          obtain ⟨hroot', -⟩ := skewHeapRemove_run hroot hb hcall
          refine ⟨_, hroot', herase hb, ?_⟩
          cases t with
          | nil => cases hb
          | node y l r =>
              cases hshape.1
              exact heap_raise hcomp hroot.nodup hheap

/-- A call on a sound heap returns. -/
theorem HeapWorld.Sound.returns (h : w.Sound) (hallowed : op.Allowed w) :
    ∃ enough, ∀ fuel, enough < fuel →
      ∃ r, op.call comp fuel w = some r := by
  obtain ⟨t, hroot, hperm, -⟩ := h
  refine ⟨t.numNodes + 1, ?_⟩
  intro fuel hfuel
  have hremove : ∀ {b : ν} {key : ν → κ}, b ∈ nodes t →
      ∃ r, skewHeapRemove (compOf comp key) fuel w.root b w.pool = some r := by
    intro b key hb
    obtain ⟨p, m', hrun, -⟩ := skewHeapRemove_spec hroot (compOf comp key) hb
      (show t.numNodes < fuel by omega)
    exact ⟨(p, m'), hrun⟩
  cases op with
  | insert b k =>
      have hb : b ∉ nodes t := fun hin => hallowed (hperm.mem_iff.1 hin)
      obtain ⟨p, m', hrun, -⟩ := skewHeapInsert_spec hroot
        (compOf comp (Function.update w.key b k)) hb hfuel
      exact ⟨(p, m'), hrun⟩
  | remove b => exact hremove (hperm.mem_iff.2 hallowed)
  | raise b k =>
      have hshape := hroot.shape
      rw [hallowed.1] at hshape
      exact hremove hshape.mem

-- ============================================================== runs

/-- After any run of calls on an empty heap, the pointers form a tree of
exactly the entries that were inserted and not removed, in which every entry
is at most those below it, has the right parent, and the root none; the root
is a minimum, and any further call returns. -/
theorem skew_heap_sound (hcomp : Compares comp) {pool : Pool ν}
    (hrun : Run (HeapStep comp) (.empty pool key) ops w) :
    (∃ t, Root w.pool w.root t ∧ (nodes t).Perm w.held
        ∧ Heap (fun a b => w.key a ≤ w.key b) t)
      ∧ (∀ x, w.root = some x → ∀ y ∈ w.held, w.key x ≤ w.key y)
      ∧ ∀ op : HeapOp ν κ, op.Allowed w → ∃ enough, ∀ fuel, enough < fuel →
        ∃ r, op.call comp fuel w = some r := by
  have hempty : (HeapWorld.empty pool key).Sound :=
    ⟨.nil, ⟨rfl, List.nodup_nil, fun _ h => by cases h⟩, List.Perm.nil, trivial⟩
  have hsound : w.Sound :=
    hrun.invariant (I := HeapWorld.Sound) (fun h hs => h.step hcomp hs) hempty
  refine ⟨hsound, ?_, fun op hallowed => hsound.returns hallowed⟩
  intro x hx y hy
  obtain ⟨t, hroot, hperm, hheap⟩ := hsound
  have hshape := hroot.shape
  rw [hx] at hshape
  have hyt := hperm.mem_iff.2 hy
  cases t with
  | nil => cases hyt
  | node z l r =>
      cases hshape.1
      rcases List.mem_cons.1 hyt with heq | hbelow
      · rw [heq]
      · exact hheap.1 y hbelow

/-- The comparison of `proc_stride_comp_f`, of keys that do not wrap. -/
def compNat (a b : Nat) : Int := if b < a then 1 else if a = b then 0 else -1

theorem compNat_compares : Compares compNat := by
  intro a b
  unfold compNat
  split
  case isTrue h => exact ⟨(fun h => by cases h), fun _ => Nat.le_of_lt h⟩
  case isFalse h =>
      split
      case isTrue heq =>
          exact ⟨(fun h => by cases h), fun _ => Nat.le_of_eq heq.symm⟩
      case isFalse hne =>
          exact ⟨fun _ => Nat.not_lt.1 h, fun hno => absurd rfl hno⟩

/-- The heap after a call, which is given some fuel. -/
def heapNext (w : HeapWorld Nat Nat) (op : HeapOp Nat Nat) :
    HeapWorld Nat Nat :=
  match op.call compNat 5 w with
  | none => w
  | some (root, pool) =>
      { pool, root, key := op.keys w.key, held := op.holds w.held }

theorem heapNext_step {w : HeapWorld Nat Nat} {op : HeapOp Nat Nat}
    (hallowed : op.Allowed w) (hsome : (op.call compNat 5 w).isSome) :
    HeapStep compNat w op (heapNext w op) := by
  obtain ⟨r, hr⟩ := Option.isSome_iff_exists.1 hsome
  have hnext : heapNext w op
      = ⟨r.2, r.1, op.keys w.key, op.holds w.held⟩ := by
    unfold heapNext
    rw [hr]
  rw [hnext]
  exact .call hallowed hr

/-- Three entries, of which the root is removed after its key was raised
above the others. -/
def threeOps : List (HeapOp Nat Nat) :=
  [.insert 0 5, .insert 1 3, .insert 2 4, .raise 1 9]

/-- The heap after that. -/
def heapAfter : HeapWorld Nat Nat :=
  threeOps.foldl heapNext
    (.empty (fun _ => ⟨none, none, none⟩) fun _ => 0)

theorem heapAfter_run : Run (HeapStep compNat)
    (.empty (fun _ => ⟨none, none, none⟩) fun _ => 0) threeOps heapAfter := by
  apply Run.cons (heapNext_step ?_ ?_)
  apply Run.cons (heapNext_step ?_ ?_)
  apply Run.cons (heapNext_step ?_ ?_)
  apply Run.cons (heapNext_step ?_ ?_) (Run.nil _)
  all_goals decide +kernel

/-- The root is now the entry with the smallest key that is left. -/
theorem skew_heap_sound_three : heapAfter.root = some 2
    ∧ ∀ y ∈ heapAfter.held, heapAfter.key 2 ≤ heapAfter.key y := by
  have hroot : heapAfter.root = some 2 := by decide +kernel
  exact ⟨hroot,
    (skew_heap_sound compNat_compares heapAfter_run).2.1 2 hroot⟩

end Ucore
