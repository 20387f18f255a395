/-
The stride scheduler refines unbounded strides as long as the strides in
the queue stay less than 2^31 apart: then the signed difference of two
wrapped strides is the difference of the strides, and the heap is a heap
for the unbounded ones.
-/
import Ucore.Sched.System

namespace Ucore.Sched

open SkewHeap Strides

variable {ν : Type} [DecidableEq ν] {W W' : World ν} {a : Strides ν}
  {procs : ν → Proc} {op : Op ν} {p q : ν}

-- ==================================================== the comparison

/-- Half of `BIG_STRIDE`, the widest window a signed comparison can tell
apart. -/
theorem half_bigStride : bigStride.toNat / 2 = 2 ^ 31 - 1 := by decide

theorem toInt_ofNat_stride (n : Nat) :
    (BitVec.ofNat 32 n).toInt = (n : Int).bmod (2 ^ 32) := by
  rw [BitVec.toInt_eq_toNat_bmod, BitVec.toNat_ofNat, Int.natCast_emod]
  exact Int.emod_bmod (n : Int) (2 ^ 32)

/-- The signed difference of wrapped strides. -/
theorem toInt_sub_stride {m n : Nat} (hm : m ≤ n + (2 ^ 31 - 1))
    (hn : n ≤ m + (2 ^ 31 - 1)) :
    (BitVec.ofNat 32 m - BitVec.ofNat 32 n).toInt = (m : Int) - n := by
  rw [BitVec.toInt_sub, toInt_ofNat_stride, toInt_ofNat_stride,
    Int.bmod_sub_bmod, Int.sub_bmod_bmod]
  apply Int.bmod_eq_of_le_mul_two <;> omega

/-- What `proc_stride_comp_f` gives inside the window. -/
theorem procStrideCompF_eq
    (hstride : ∀ p, (procs p).lab6Stride = BitVec.ofNat 32 (a.stride p))
    (hpq : a.stride p ≤ a.stride q + (2 ^ 31 - 1))
    (hqp : a.stride q ≤ a.stride p + (2 ^ 31 - 1)) :
    (procStrideCompF procs p q = -1 ↔ a.stride p < a.stride q)
      ∧ (procStrideCompF procs p q = 0 ↔ a.stride p = a.stride q)
      ∧ (procStrideCompF procs p q = 1 ↔ a.stride q < a.stride p) := by
  unfold procStrideCompF
  rw [hstride, hstride, toInt_sub_stride hpq hqp]
  dsimp only
  split
  case isTrue hlt => omega
  case isFalse hge =>
      split
      case isTrue => omega
      case isFalse => omega

-- ===================================================== the invariant

/-- The order of unbounded strides. -/
def byStride (a : Strides ν) (p q : ν) : Prop := a.stride p ≤ a.stride q

/-- The pool holds the queued processes as a heap for their unbounded
strides; a process that was picked is still its root. -/
structure Queue (W : World ν) (t : BinaryTree ν) : Prop where
  root : Root W.sched.pool W.sched.rq.lab6RunPool t
  mem : ∀ p, p ∈ nodes t ↔ p ∈ W.strides.queued
  heap : ¬ W.strides.Pending → Heap (byStride W.strides) t
  pending : ∀ p, W.strides.current = some p → p ∈ W.strides.queued →
    ∃ l r, t = .node p l r ∧ Heap (byStride W.strides) l
      ∧ Heap (byStride W.strides) r

/-- The invariant of the scheduler. -/
structure Inv (W : World ν) : Prop where
  stride : ∀ p, (W.sched.procs p).lab6Stride
    = BitVec.ofNat 32 (W.strides.stride p)
  priority : ∀ p, (W.sched.procs p).lab6Priority.toNat
    = W.strides.priority p
  within : Within (2 ^ 31 - 1) W.strides
  queue : ∃ t, Queue W t

theorem Start.inv (h : Start W) : Inv W := by
  refine ⟨h.stride, h.priority, ?_, .nil, ⟨?_, List.nodup_nil, ?_⟩, ?_, ?_, ?_⟩
  · intro p hp
    rw [mem_active, h.queued, h.current] at hp
    rcases hp with hp | hp <;> cases hp
  · obtain ⟨s, hs⟩ := h.init
    rw [hs]
    rfl
  · obtain ⟨s, hs⟩ := h.init
    rw [hs]
    exact fun _ h => by cases h
  · intro p
    rw [h.queued]
    exact ⟨(fun h => by cases h), fun h => by cases h⟩
  · exact fun _ => trivial
  · intro p hp
    rw [h.current] at hp
    cases hp

theorem Inv.ordered (h : Inv W) : Ordered W := by
  intro p hp q hq
  have hp' := mem_active.mpr (Or.inl hp)
  have hq' := mem_active.mpr (Or.inl hq)
  exact procStrideCompF_eq h.stride (h.within p hp' q hq')
    (h.within q hq' p hp')

/-- The order `skew_heap_merge` sees is that of the unbounded strides. -/
theorem decides_byStride
    (hstride : ∀ p, (procs p).lab6Stride = BitVec.ofNat 32 (a.stride p))
    (hwithin : Within (2 ^ 31 - 1) a) {s t : BinaryTree ν}
    (hs : ∀ x ∈ nodes s, x ∈ a.queued) (ht : ∀ x ∈ nodes t, x ∈ a.queued) :
    Decides (compLt (procStrideCompF procs)) (byStride a) s t := by
  intro x y hx hy
  have hx' := mem_active.mpr (Or.inl (hs x hx))
  have hy' := mem_active.mpr (Or.inl (ht y hy))
  have hcomp := (procStrideCompF_eq hstride (hwithin x hx' y hy')
    (hwithin y hy' x hx')).1
  unfold compLt byStride
  rw [decide_eq_true_iff, decide_eq_false_iff_not, hcomp]
  omega

theorem byStride_trans (a : Strides ν) (p q r : ν) (hpq : byStride a p q)
    (hqr : byStride a q r) : byStride a p r :=
  Nat.le_trans hpq hqr

/-- The root is the process picked next. -/
theorem Inv.picksLeast (h : Inv W) : PicksLeast W := by
  intro hpending o s' hrun
  obtain ⟨t, ht⟩ := h.queue
  have hshape := ht.root.shape
  unfold stridePickNext at hrun
  cases hpool : W.sched.rq.lab6RunPool with
  | none =>
      rw [hpool] at hrun hshape
      cases hrun
      cases t with
      | nil =>
          refine Finset.eq_empty_of_forall_notMem fun p hp => ?_
          have hin := (ht.mem p).mpr hp
          cases hin
      | node x l r => cases hshape.1
  | some p =>
      rw [hpool] at hrun hshape
      dsimp only at hrun
      split at hrun
      case isTrue => cases hrun
      case isFalse =>
          cases hrun
          cases t with
          | nil => cases hshape
          | node x l r =>
              cases hshape.1
              obtain ⟨hleast, -⟩ := ht.heap hpending
              refine ⟨(ht.mem p).mp List.mem_cons_self, fun q hq => ?_⟩
              rcases List.mem_cons.mp ((ht.mem q).mpr hq) with rfl | hin
              · exact Nat.le_refl _
              · exact hleast q hin

-- ========================================================= the steps

/-- A call that fits is one the unbounded scheduler allows in its
window. -/
theorem Inv.allowed (h : Inv W)
    (hallowed : W.strides.Allowed bigStride.toNat op) (hfits : Fits W op) :
    W.strides.Allowed (2 ^ 31 - 1) op
      ∧ W.strides.Short bigStride.toNat (2 ^ 31 - 1) op := by
  cases op with
  | enqueue p =>
      unfold Fits at hfits
      rw [half_bigStride] at hfits
      exact ⟨⟨hallowed.1, hallowed.2.1, hfits⟩, trivial⟩
  | dequeue p => exact ⟨hallowed, trivial⟩
  | pick o =>
      refine ⟨hallowed, ?_⟩
      cases o with
      | none => trivial
      | some p =>
          rcases hfits with hprio | halone
          · left
            rw [h.priority] at hprio
            rw [← half_bigStride]
            exact Nat.div_le_div_left hprio (by decide)
          · exact Or.inr halone
  | tick p => exact ⟨hallowed, trivial⟩
  | setPriority p k => exact ⟨hallowed, trivial⟩

/-- `pick_next` returned what the label says. -/
theorem exec_pick {fuel : Nat} {o : Option ν} {s s' : Sched ν}
    (hrun : exec fuel s (.pick o) = some s') :
    stridePickNext s = some (o, s') := by
  unfold exec at hrun
  cases hpick : stridePickNext s with
  | none => rw [hpick] at hrun; cases hrun
  | some r =>
      obtain ⟨o', t⟩ := r
      rw [hpick] at hrun
      dsimp only at hrun
      split at hrun
      case isTrue heq =>
          cases hrun
          rw [heq]
      case isFalse => cases hrun

theorem Inv.minimal (h : Inv W) (hstep : Step W op W') (o : Option ν)
    (hop : op = .pick o) : W.strides.Minimal o := by
  subst hop
  obtain ⟨hallowed, ⟨fuel, hrun⟩, -⟩ := hstep
  exact h.picksLeast hallowed.1 (exec_pick hrun)

/-- A call that changes neither strides nor the pool. -/
theorem Queue.congr {t : BinaryTree ν} (h : Queue W t)
    (hpool : W'.sched.pool = W.sched.pool)
    (hroot : W'.sched.rq.lab6RunPool = W.sched.rq.lab6RunPool)
    (hstride : W'.strides.stride = W.strides.stride)
    (hqueued : W'.strides.queued = W.strides.queued)
    (hcurrent : W'.strides.current = W.strides.current) : Queue W' t := by
  have horder : byStride W'.strides = byStride W.strides := by
    unfold byStride
    rw [hstride]
  have hpending : W'.strides.Pending ↔ W.strides.Pending := by
    unfold Strides.Pending
    rw [hqueued, hcurrent]
  refine ⟨?_, ?_, ?_, ?_⟩
  · rw [hpool, hroot]
    exact h.root
  · rw [hqueued]
    exact h.mem
  · rw [hpending, horder]
    exact h.heap
  · rw [hqueued, hcurrent, horder]
    exact h.pending

theorem Inv.enqueue {fuel : Nat} {s' : Sched ν} (h : Inv W)
    (hallowed : W.strides.Allowed (2 ^ 31 - 1) (.enqueue p))
    (hwithin : Within (2 ^ 31 - 1)
      (W.strides.next bigStride.toNat (.enqueue p)))
    (hrun : strideEnqueue fuel p W.sched = some s') :
    Inv ⟨s', W.strides.next bigStride.toNat (.enqueue p)⟩ := by
  obtain ⟨hp, hpending, -⟩ := hallowed
  obtain ⟨t, ht⟩ := h.queue
  have hpt : p ∉ nodes t := fun hin => hp ((ht.mem p).mp hin)
  unfold strideEnqueue at hrun
  cases hinsert : skewHeapInsert (procStrideCompF W.sched.procs) fuel
      W.sched.rq.lab6RunPool p W.sched.pool with
  | none => rw [hinsert] at hrun; cases hrun
  | some r =>
      obtain ⟨root, pool⟩ := r
      rw [hinsert] at hrun
      cases hrun
      obtain ⟨hroot, -⟩ := skewHeapInsert_run ht.root hpt hinsert
      let t' := merge (compLt (procStrideCompF W.sched.procs)) t
        (.node p .nil .nil)
      have hmem : ∀ q, q ∈ nodes t' ↔ q ∈ insert p W.strides.queued := by
        intro q
        rw [mem_merge, ht.mem, Finset.mem_insert, or_comm]
        exact or_congr_left List.mem_singleton
      have hnot : ¬ (W.strides.next bigStride.toNat (.enqueue p)).Pending := by
        rintro ⟨c, hcur, hc⟩
        have hcur' : (if W.strides.current = some p then none
            else W.strides.current) = some c := hcur
        split at hcur'
        case isTrue => cases hcur'
        case isFalse hne =>
            refine hpending ⟨c, hcur', ?_⟩
            refine (Finset.mem_insert.mp hc).resolve_left ?_
            rintro rfl
            exact hne hcur'
      refine ⟨fun q => ?_, fun q => ?_, hwithin, t', hroot, hmem, fun _ => ?_,
        fun c hcur hc => absurd ⟨c, hcur, hc⟩ hnot⟩
      · by_cases hq : q = p
        · subst hq
          show (Function.update W.sched.procs q _ q).lab6Stride = _
          rw [Function.update_self]
          exact h.stride q
        · show (Function.update W.sched.procs p _ q).lab6Stride = _
          rw [Function.update_of_ne hq]
          exact h.stride q
      · by_cases hq : q = p
        · subst hq
          show (Function.update W.sched.procs q _ q).lab6Priority.toNat = _
          rw [Function.update_self]
          exact h.priority q
        · show (Function.update W.sched.procs p _ q).lab6Priority.toNat = _
          rw [Function.update_of_ne hq]
          exact h.priority q
      · have hdecides : Decides (compLt (procStrideCompF W.sched.procs))
            (byStride W.strides) t (.node p .nil .nil) :=
          decides_byStride (a := W.strides.next bigStride.toNat (.enqueue p))
            h.stride hwithin
            (fun x hx => (hmem x).mp (mem_merge.mpr (Or.inl hx)))
            (fun x hx => (hmem x).mp (mem_merge.mpr (Or.inr hx)))
        exact heap_merge (byStride_trans W.strides) t _ hdecides
          (ht.heap hpending) ⟨(fun _ h => by cases h), trivial, trivial⟩

theorem Inv.dequeue {fuel : Nat} {s' : Sched ν} (h : Inv W)
    (hallowed : W.strides.Allowed (2 ^ 31 - 1) (.dequeue p))
    (hwithin : Within (2 ^ 31 - 1)
      (W.strides.next bigStride.toNat (.dequeue p)))
    (hrun : strideDequeue fuel p W.sched = some s') :
    Inv ⟨s', W.strides.next bigStride.toNat (.dequeue p)⟩ := by
  obtain ⟨hp, hpending⟩ := hallowed
  obtain ⟨t, ht⟩ := h.queue
  have hpt : p ∈ nodes t := (ht.mem p).mpr hp
  unfold strideDequeue at hrun
  cases hremove : skewHeapRemove (procStrideCompF W.sched.procs) fuel
      W.sched.rq.lab6RunPool p W.sched.pool with
  | none => rw [hremove] at hrun; cases hrun
  | some r =>
      obtain ⟨root, pool⟩ := r
      rw [hremove] at hrun
      cases hrun
      obtain ⟨hroot, -⟩ := skewHeapRemove_run ht.root hpt hremove
      let lt := compLt (procStrideCompF W.sched.procs)
      have hmem : ∀ q, q ∈ nodes (erase lt p t)
          ↔ q ∈ W.strides.queued.erase p := by
        intro q
        rw [mem_erase ht.root.nodup, ht.mem, Finset.mem_erase]
      have hnot : ¬ (W.strides.next bigStride.toNat (.dequeue p)).Pending := by
        rintro ⟨c, hcur, hc⟩
        obtain ⟨hne, hc⟩ := Finset.mem_erase.mp hc
        have hcp := hpending ⟨c, hcur, hc⟩
        rw [show W.strides.current = some c from hcur] at hcp
        cases hcp
        exact hne rfl
      refine ⟨h.stride, h.priority, hwithin, erase lt p t, hroot, hmem,
        fun _ => ?_, fun c hcur hc => absurd ⟨c, hcur, hc⟩ hnot⟩
      by_cases hpend : W.strides.Pending
      · -- the root goes, whose stride is no longer the least
        obtain ⟨l, r, rfl, hl, hr⟩ := ht.pending p (hpending hpend) hp
        rw [erase, if_pos rfl]
        have hsub : ∀ x ∈ nodes l ++ nodes r, x ∈ W.strides.queued :=
          fun x hx => (ht.mem x).mp (List.mem_cons_of_mem p hx)
        exact heap_merge (byStride_trans W.strides) l r
          (decides_byStride h.stride h.within
            (fun x hx => hsub x (List.mem_append_left _ hx))
            (fun x hx => hsub x (List.mem_append_right _ hx))) hl hr
      · exact heap_erase (byStride_trans W.strides)
          (decides_byStride h.stride h.within (fun x hx => (ht.mem x).mp hx)
            (fun x hx => (ht.mem x).mp hx)) ht.root.nodup (ht.heap hpend)

/-- The wrapped stride moves as the unbounded one does. -/
theorem stride_move {m : Nat} {k : BitVec 32} :
    BitVec.ofNat 32 m + bigStride / k
      = BitVec.ofNat 32 (m + bigStride.toNat / k.toNat) := by
  rw [BitVec.ofNat_add]
  congr 1
  apply BitVec.eq_of_toNat_eq
  rw [BitVec.toNat_udiv, BitVec.toNat_ofNat, Nat.mod_eq_of_lt]
  exact Nat.lt_of_le_of_lt (Nat.div_le_self _ _) bigStride.isLt

theorem Inv.pick {o : Option ν} {s' : Sched ν} (h : Inv W)
    (hallowed : W.strides.Allowed (2 ^ 31 - 1) (.pick o))
    (hwithin : Within (2 ^ 31 - 1)
      (W.strides.next bigStride.toNat (.pick o)))
    (hrun : stridePickNext W.sched = some (o, s')) :
    Inv ⟨s', W.strides.next bigStride.toNat (.pick o)⟩ := by
  have hpending := hallowed.1
  obtain ⟨t, ht⟩ := h.queue
  unfold stridePickNext at hrun
  cases hpool : W.sched.rq.lab6RunPool with
  | none =>
      rw [hpool] at hrun
      cases hrun
      refine ⟨h.stride, h.priority, hwithin, t, ht.root, ht.mem,
        fun _ => ht.heap hpending, ?_⟩
      intro c hcur
      cases hcur
  | some p =>
      rw [hpool] at hrun
      dsimp only at hrun
      split at hrun
      case isTrue => cases hrun
      case isFalse hprio =>
          cases hrun
          have hother : ∀ q, q ≠ p →
              (W.strides.next bigStride.toNat (.pick (some p))).stride q
                = W.strides.stride q :=
            fun q hq => Function.update_of_ne hq _ _
          refine ⟨fun q => ?_, fun q => ?_, hwithin, t, ht.root, ht.mem,
            ?_, ?_⟩
          · by_cases hq : q = p
            · subst hq
              show (Function.update W.sched.procs q _ q).lab6Stride
                = BitVec.ofNat 32 (Function.update W.strides.stride q _ q)
              rw [Function.update_self, Function.update_self, ← h.priority]
              dsimp only
              rw [h.stride, stride_move]
            · show (Function.update W.sched.procs p _ q).lab6Stride
                = BitVec.ofNat 32 (Function.update W.strides.stride p _ q)
              rw [Function.update_of_ne hq, Function.update_of_ne hq]
              exact h.stride q
          · by_cases hq : q = p
            · subst hq
              show (Function.update W.sched.procs q _ q).lab6Priority.toNat
                = _
              rw [Function.update_self]
              exact h.priority q
            · show (Function.update W.sched.procs p _ q).lab6Priority.toNat
                = _
              rw [Function.update_of_ne hq]
              exact h.priority q
          · intro hnot
            have hshape := ht.root.shape
            rw [hpool] at hshape
            exact absurd ⟨p, rfl, (ht.mem p).mp hshape.mem⟩ hnot
          · intro c hcur _
            cases hcur
            have hshape := ht.root.shape
            rw [hpool] at hshape
            cases t with
            | nil => cases hshape
            | node x l r =>
                cases hshape.1
                have hnodup := ht.root.nodup
                rw [nodes, List.nodup_cons, List.mem_append, not_or]
                  at hnodup
                obtain ⟨⟨hpl, hpr⟩, -⟩ := hnodup
                obtain ⟨-, hl, hr⟩ := ht.heap hpending
                have hkeep : ∀ {s : BinaryTree ν}, p ∉ nodes s →
                    Heap (byStride W.strides) s → Heap (byStride
                      (W.strides.next bigStride.toNat (.pick (some p)))) s := by
                  intro s hps hs
                  refine heap_mono hs fun {x y} hx hy hle => ?_
                  have hxp : x ≠ p := fun heq => hps (heq ▸ hx)
                  have hyp : y ≠ p := fun heq => hps (heq ▸ hy)
                  unfold byStride
                  rw [hother x hxp, hother y hyp]
                  exact hle
                exact ⟨l, r, rfl, hkeep hpl hl, hkeep hpr hr⟩

/-- A store to fields of a process other than its stride. -/
theorem Inv.setProc {pr : Proc} {a' : Strides ν} (h : Inv W)
    (hstride : pr.lab6Stride = (W.sched.procs p).lab6Stride)
    (hprio : ∀ q, (Function.update W.sched.procs p pr q).lab6Priority.toNat
      = a'.priority q)
    (hwithin : Within (2 ^ 31 - 1) a')
    (hsame : a'.stride = W.strides.stride)
    (hqueued : a'.queued = W.strides.queued)
    (hcurrent : a'.current = W.strides.current) :
    Inv ⟨W.sched.setProc p pr, a'⟩ := by
  obtain ⟨t, ht⟩ := h.queue
  refine ⟨fun q => ?_, hprio, hwithin, t,
    ht.congr rfl rfl hsame hqueued hcurrent⟩
  rw [hsame]
  by_cases hq : q = p
  · subst hq
    show (Function.update W.sched.procs q pr q).lab6Stride = _
    rw [Function.update_self, hstride]
    exact h.stride q
  · show (Function.update W.sched.procs p pr q).lab6Stride = _
    rw [Function.update_of_ne hq]
    exact h.stride q

theorem Inv.tick (h : Inv W) :
    Inv ⟨strideProcTick p W.sched, W.strides⟩ := by
  unfold strideProcTick
  refine @Inv.setProc ν _ W p _ W.strides h ?_ (fun q => ?_) h.within rfl rfl
    rfl
  · split <;> split <;> rfl
  · by_cases hq : q = p
    · subst hq
      rw [Function.update_self]
      split <;> split <;> exact h.priority q
    · rw [Function.update_of_ne hq]
      exact h.priority q

theorem Inv.setPriority {k : BitVec 32} (h : Inv W)
    (hwithin : Within (2 ^ 31 - 1)
      (W.strides.next bigStride.toNat (.setPriority p k))) :
    Inv ⟨lab6SetPriority p k W.sched,
      W.strides.next bigStride.toNat (.setPriority p k)⟩ := by
  refine h.setProc rfl (fun q => ?_) hwithin rfl rfl rfl
  show _ = Function.update W.strides.priority p _ q
  by_cases hq : q = p
  · subst hq
    rw [Function.update_self, Function.update_self]
    dsimp only
    split <;> rfl
  · rw [Function.update_of_ne hq, Function.update_of_ne hq]
    exact h.priority q

/-- A call that fits keeps the invariant, and is a step of the unbounded
scheduler. -/
theorem Inv.step (h : Inv W) (hstep : StepFits W op W') :
    Inv W' ∧ Strides.Step bigStride.toNat (2 ^ 31 - 1) W.strides op
      W'.strides := by
  obtain ⟨hstep, hfits⟩ := hstep
  have hminimal := h.minimal hstep
  obtain ⟨hallowed, ⟨fuel, hrun⟩, hnext⟩ := hstep
  obtain ⟨hallowed, hshort⟩ := h.allowed hallowed hfits
  have hwithin := h.within.next hallowed hshort hminimal
  obtain ⟨s', a'⟩ := W'
  dsimp only at hrun hnext
  subst hnext
  refine ⟨?_, .call hallowed hminimal⟩
  cases op with
  | enqueue p => exact h.enqueue hallowed hwithin hrun
  | dequeue p => exact h.dequeue hallowed hwithin hrun
  | pick o => exact h.pick hallowed hwithin (exec_pick hrun)
  | tick p =>
      cases hrun
      exact h.tick
  | setPriority p k =>
      cases hrun
      exact h.setPriority hwithin

-- ============================================================== runs

theorem Inv.run {ops : List (Op ν)} (h : Inv W)
    (hrun : Run StepFits W ops W') :
    Inv W' ∧ Run (Strides.Step bigStride.toNat (2 ^ 31 - 1)) W.strides ops
      W'.strides := by
  induction hrun with
  | nil W => exact ⟨h, .nil _⟩
  | cons hstep _ ih =>
      obtain ⟨h₁, hstep₁⟩ := h.step hstep
      obtain ⟨h', hrest⟩ := ih h₁
      exact ⟨h', .cons hstep₁ hrest⟩

theorem Inv.bounded (h : Inv W) : Bounded bigStride.toNat W.strides := by
  intro p
  rw [← h.priority]
  have hlt := (W.sched.procs p).lab6Priority.isLt
  have hbig : bigStride.toNat = 2 ^ 32 - 1 := by decide
  omega

/-- Every allowed call returns. -/
theorem Inv.returns (h : Inv W) : Returns W := by
  obtain ⟨t, ht⟩ := h.queue
  refine ⟨fun p hallowed => ?_, fun p hallowed => ?_, fun o hallowed => ?_⟩
  · have hpt : p ∉ nodes t := fun hin => hallowed.1 ((ht.mem p).mp hin)
    obtain ⟨root, pool, hrun, -⟩ := skewHeapInsert_spec ht.root
      (procStrideCompF W.sched.procs) hpt (Nat.lt_succ_self _)
    exact ⟨_, _, by rw [strideEnqueue, hrun]⟩
  · obtain ⟨root, pool, hrun, -⟩ := skewHeapRemove_spec ht.root
      (procStrideCompF W.sched.procs) ((ht.mem p).mpr hallowed.1)
      (Nat.lt_succ_self _)
    exact ⟨_, _, by rw [strideDequeue, hrun]⟩
  · unfold stridePickNext
    cases hpool : W.sched.rq.lab6RunPool with
    | none => exact ⟨none, W.sched, rfl⟩
    | some p =>
        have hshape := ht.root.shape
        rw [hpool] at hshape
        have hprio := hallowed.2 p ((ht.mem p).mp hshape.mem)
        rw [← h.priority] at hprio
        have hne : (W.sched.procs p).lab6Priority ≠ 0 := by
          intro hzero
          rw [hzero] at hprio
          exact absurd hprio (by decide)
        dsimp only
        rw [if_neg hne]
        exact ⟨_, _, rfl⟩

/-- In every run whose calls fit, the comparison orders the queue as the
unbounded strides do, each pick is one of least stride, and no process is
passed over forever. -/
theorem stride_refines {W₀ : World ν} {ops : List (Op ν)} (h : Start W₀)
    (hrun : Run StepFits W₀ ops W) :
    Ordered W ∧ PicksLeast W ∧ Returns W
      ∧ Run (Strides.Step bigStride.toNat (2 ^ 31 - 1)) W₀.strides ops
        W.strides
      ∧ ∀ q ∈ W.strides.queued, ∀ {ops' W'}, Run StepFits W ops' W' →
        .dequeue q ∉ ops' → (picked ops').length
          ≤ 2 ^ 31 * (picked ops').toFinset.card := by
  obtain ⟨hinv, hsteps⟩ := h.inv.run hrun
  refine ⟨hinv.ordered, hinv.picksLeast, hinv.returns, hsteps, ?_⟩
  intro q hq ops' W' hrun' hstay
  exact length_picked_waiting (by decide) (hinv.run hrun').2 hinv.bounded
    hinv.within hq hstay

/-- A pick that does not fit leaves the queue in the wrong order. -/
theorem Inv.unordered (h : Inv W) (hstep : Step W (.pick (some p)) W')
    (hno : ¬ Fits W (.pick (some p))) : ¬ Ordered W' := by
  intro hordered
  obtain ⟨hp, hleast⟩ := h.minimal hstep (some p) rfl
  obtain ⟨hallowed, ⟨fuel, hrun⟩, hnext⟩ := hstep
  have hrun := exec_pick hrun
  rw [Fits, not_or, h.priority] at hno
  obtain ⟨hlow, hmore⟩ := hno
  have hone : W.strides.priority p = 1 := by
    have hpos := hallowed.2 p hp
    omega
  -- another process, whose stride is in the window
  obtain ⟨q, hq, hqp⟩ : ∃ q ∈ W.strides.queued, q ≠ p := by
    by_contra hnone
    refine hmore (Finset.eq_singleton_iff_unique_mem.mpr ⟨hp, fun q hq => ?_⟩)
    by_contra hne
    exact hnone ⟨q, hq, hne⟩
  have hle := hleast q hq
  have hnear := h.within q (mem_active.mpr (Or.inl hq)) p
    (mem_active.mpr (Or.inl hp))
  have hmoved : W'.strides.stride p = W.strides.stride p + (2 ^ 32 - 1) := by
    rw [hnext]
    refine (Function.update_self p _ _).trans ?_
    rw [hone]
    rfl
  have hkept : W'.strides.stride q = W.strides.stride q := by
    rw [hnext]
    exact Function.update_of_ne hqp _ _
  have hqueued : W'.strides.queued = W.strides.queued := by rw [hnext]; rfl
  have hcomp : procStrideCompF W'.sched.procs p q = -1 := by
    unfold stridePickNext at hrun
    cases hpool : W.sched.rq.lab6RunPool with
    | none => rw [hpool] at hrun; cases hrun
    | some p' =>
        rw [hpool] at hrun
        dsimp only at hrun
        split at hrun
        case isTrue => cases hrun
        case isFalse =>
            rw [Option.some.injEq, Prod.mk.injEq, Option.some.injEq] at hrun
            obtain ⟨rfl, hs⟩ := hrun
            have hpnew : (W'.sched.procs p').lab6Stride
                = BitVec.ofNat 32 (W.strides.stride p' + (2 ^ 32 - 1)) := by
              have hprio : (W.sched.procs p').lab6Priority = 1 :=
                BitVec.eq_of_toNat_eq ((h.priority p').trans hone)
              rw [← hs]
              refine (congrArg Proc.lab6Stride
                (Function.update_self p' _ _)).trans ?_
              dsimp only
              rw [hprio, h.stride, stride_move]
              rfl
            have hqold : (W'.sched.procs q).lab6Stride
                = BitVec.ofNat 32 (W.strides.stride q) := by
              rw [← hs]
              refine (congrArg Proc.lab6Stride
                (Function.update_of_ne hqp _ _)).trans ?_
              exact h.stride q
            -- modulo 2^32 the move is one step down
            have hdown : (BitVec.ofNat 32 (W.strides.stride p' + (2 ^ 32 - 1))
                - BitVec.ofNat 32 (W.strides.stride q)).toInt
                = (W.strides.stride p' : Int) - 1 - W.strides.stride q := by
              rw [BitVec.toInt_sub, toInt_ofNat_stride, toInt_ofNat_stride,
                Int.bmod_sub_bmod, Int.sub_bmod_bmod]
              have hshift : ((W.strides.stride p' + (2 ^ 32 - 1) : Nat) : Int)
                  - W.strides.stride q = (W.strides.stride p' : Int) - 1
                    - W.strides.stride q + (2 ^ 32 : Nat) := by
                omega
              rw [hshift, Int.add_bmod_right]
              apply Int.bmod_eq_of_le_mul_two <;> omega
            unfold procStrideCompF
            rw [hpnew, hqold, hdown, if_neg (by omega), if_neg (by omega)]
  have hless := ((hordered p (hqueued ▸ hp) q (hqueued ▸ hq)).1).mp hcomp
  rw [hmoved, hkept] at hless
  omega

-- ===================================================== two processes

/-- Two processes of one priority that start with stride 0. -/
def twoProcs (priority : BitVec 32) : World Bool where
  sched := strideInit
    { procs := fun _ =>
        { needResched := false, rq := false, timeSlice := 0, lab6Stride := 0,
          lab6Priority := priority }
      pool := fun _ => { parent := none, left := none, right := none }
      rq := { procNum := 0, maxTimeSlice := 5, lab6RunPool := none } }
  strides :=
    { stride := fun _ => 0, priority := fun _ => priority.toNat, queued := ∅,
      current := none }

theorem twoProcs_start (priority : BitVec 32) : Start (twoProcs priority) :=
  ⟨⟨_, rfl⟩, fun _ => rfl, fun _ => rfl, rfl, rfl⟩

/-- Both enter the queue, one is picked and enters again. -/
def oneRound : List (Op Bool) :=
  [.enqueue false, .enqueue true, .pick (some true), .dequeue true,
    .enqueue true]

/-- With priority 2 the strides fit. -/
theorem stride_refines_two : ∃ W, Run StepFits (twoProcs 2) oneRound W
    ∧ Ordered W ∧ W.strides.stride true = 2 ^ 31 - 1 := by
  have hsome : (runTo Fits 4 (twoProcs 2) oneRound).isSome = true := by
    decide +kernel
  obtain ⟨W, hW⟩ := Option.isSome_iff_exists.mp hsome
  have hstride : (runTo Fits 4 (twoProcs 2) oneRound).map
      (·.strides.stride true) = some (2 ^ 31 - 1) := by
    decide +kernel
  rw [hW, Option.map_some, Option.some.injEq] at hstride
  have hrun : Run StepFits (twoProcs 2) oneRound W := runTo_run hW
  exact ⟨W, hrun, (stride_refines (twoProcs_start 2) hrun).1, hstride⟩

/-- With priority 1 the process picked moves up by 2^32 - 1. The wrapped
comparison takes it for the lesser one, and it is picked again. -/
theorem stride_wraps : ¬ ∀ (W₀ W : World Bool) (ops : List (Op Bool)),
    Start W₀ → Run Step W₀ ops W → Ordered W ∧ PicksLeast W := by
  intro hall
  have hout : (runTo (fun _ _ => True) 4 (twoProcs 1) oneRound).map
      (fun W => (procStrideCompF W.sched.procs true false,
        W.strides.stride true, W.strides.stride false,
        decide (true ∈ W.strides.queued), decide (false ∈ W.strides.queued)))
      = some (-1, 2 ^ 32 - 1, 0, true, true) := by
    decide +kernel
  obtain ⟨W, hW, hval⟩ := Option.map_eq_some_iff.mp hout
  simp only [Prod.mk.injEq, decide_eq_true_eq] at hval
  obtain ⟨hcomp, htrue, hfalse, hqt, hqf⟩ := hval
  have hrun : Run Step (twoProcs 1) oneRound W :=
    (runTo_run hW).mono And.left
  have hless := ((hall _ _ _ (twoProcs_start 1) hrun).1 true hqt false
    hqf).1.mp hcomp
  rw [htrue, hfalse] at hless
  exact absurd hless (by decide)

end Ucore.Sched
