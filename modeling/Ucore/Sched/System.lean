/-
Stride scheduling over strides that never wrap: what the scheduler is for.

A process that is picked has the least stride in the queue and moves up by
`big / priority`. The callers take a process off the queue once it was
picked, before they do anything else: until then it is `Pending`. It stays
`current`, and may be put back with the stride it has; any other process
enters the queue within `w` of the strides of those that are active.

Runs of the stride scheduler, side by side with the strides it would have
if they did not wrap.
-/
import Ucore.Lib.Run
import Ucore.Sched.DefaultSched
import Mathlib.Data.Finset.Lattice.Basic
import Mathlib.Data.Finset.Option
import Mathlib.Algebra.BigOperators.Group.Finset.Basic
import Mathlib.Algebra.Order.BigOperators.Group.Finset
import Mathlib.Data.BitVec

namespace Ucore.Sched

variable {ν : Type} [DecidableEq ν]

-- ============================================================ states

/-- The strides, the priorities and the queue. -/
structure Strides (ν : Type) where
  stride : ν → Nat
  priority : ν → Nat
  queued : Finset ν
  current : Option ν

/-- What happens to the queue. -/
inductive Op (ν : Type) where
  | enqueue (p : ν)
  | dequeue (p : ν)
  | pick (o : Option ν)
  | tick (p : ν)
  | setPriority (p : ν) (k : BitVec 32)
deriving DecidableEq

namespace Strides

/-- The queue and the process picked last. -/
def active (a : Strides ν) : Finset ν :=
  a.queued ∪ a.current.toFinset

/-- The process picked last is still in the queue. -/
def Pending (a : Strides ν) : Prop :=
  ∃ p, a.current = some p ∧ p ∈ a.queued

/-- The stride of a process is within `w` of the active ones. -/
def Near (w : Nat) (a : Strides ν) (p : ν) : Prop :=
  ∀ q ∈ a.active, a.stride p ≤ a.stride q + w ∧ a.stride q ≤ a.stride p + w

/-- What the callers see to. -/
def Allowed (w : Nat) (a : Strides ν) : Op ν → Prop
  | .enqueue p =>
      p ∉ a.queued ∧ ¬ a.Pending ∧ (a.current = some p ∨ a.Near w p)
  | .dequeue p => p ∈ a.queued ∧ (a.Pending → a.current = some p)
  | .pick _ => ¬ a.Pending ∧ ∀ p ∈ a.queued, 1 ≤ a.priority p
  | .tick _ => True
  | .setPriority _ _ => True

/-- What a call does to the strides and the queue. -/
def next (big : Nat) (a : Strides ν) : Op ν → Strides ν
  | .enqueue p =>
      { a with
        queued := insert p a.queued
        current := if a.current = some p then none else a.current }
  | .dequeue p => { a with queued := a.queued.erase p }
  | .pick none => { a with current := none }
  | .pick (some p) =>
      let stride := a.stride p + big / a.priority p
      { a with
        stride := Function.update a.stride p stride, current := some p }
  | .tick _ => a
  | .setPriority p k =>
      let priority := if k = 0 then 1 else k.toNat
      { a with priority := Function.update a.priority p priority }

/-- The process picked has the least stride; none is picked from an empty
queue. -/
def Minimal (a : Strides ν) : Option ν → Prop
  | none => a.queued = ∅
  | some p => p ∈ a.queued ∧ ∀ q ∈ a.queued, a.stride p ≤ a.stride q

/-- The steps of the scheduler. -/
inductive Step (big w : Nat) : Strides ν → Op ν → Strides ν → Prop
  | call {a : Strides ν} {op : Op ν} : a.Allowed w op →
      (∀ o, op = .pick o → a.Minimal o) → Step big w a op (a.next big op)

-- ======================================================== the window

/-- The active strides are within `w` of each other. -/
def Within (w : Nat) (a : Strides ν) : Prop :=
  ∀ p ∈ a.active, ∀ q ∈ a.active, a.stride p ≤ a.stride q + w

/-- The process picked moves up by at most `w`, unless it is alone. -/
def Short (big w : Nat) (a : Strides ν) : Op ν → Prop
  | .pick (some p) => big / a.priority p ≤ w ∨ a.queued = {p}
  | _ => True

variable {a a' : Strides ν} {op : Op ν} {big w : Nat} {p q : ν}

theorem mem_active : p ∈ a.active ↔ p ∈ a.queued ∨ a.current = some p := by
  rw [active, Finset.mem_union, Option.mem_toFinset, Option.mem_def]

theorem within_of_subset {a' : Strides ν} (h : Within w a)
    (hstride : a'.stride = a.stride) (hsub : a'.active ⊆ a.active) :
    Within w a' := by
  intro p hp q hq
  rw [hstride]
  exact h p (hsub hp) q (hsub hq)

/-- Short moves keep the active strides together. -/
theorem Within.next (h : Within w a) (hallowed : a.Allowed w op)
    (hshort : a.Short big w op) (hmin : ∀ o, op = .pick o → a.Minimal o) :
    Within w (a.next big op) := by
  cases op with
  | enqueue p =>
      -- a process that was current is active already
      have hnear : ∀ q ∈ a.active, a.stride p ≤ a.stride q + w
          ∧ a.stride q ≤ a.stride p + w := by
        rcases hallowed.2.2 with hcur | hnear
        · have hp : p ∈ a.active := mem_active.mpr (Or.inr hcur)
          exact fun q hq => ⟨h p hp q hq, h q hq p hp⟩
        · exact hnear
      have hsub : ∀ q ∈ (a.next big (.enqueue p)).active,
          q = p ∨ q ∈ a.active := by
        intro q hq
        rcases mem_active.mp hq with hq | hq
        · rcases Finset.mem_insert.mp hq with rfl | hq
          · exact Or.inl rfl
          · exact Or.inr (mem_active.mpr (Or.inl hq))
        · refine Or.inr (mem_active.mpr (Or.inr ?_))
          by_contra hne
          have hcur : (if a.current = some p then none else a.current)
              = some q := hq
          split at hcur
          · cases hcur
          · exact hne hcur
      intro q hq' r hr'
      show a.stride q ≤ a.stride r + w
      rcases hsub q hq' with rfl | hq <;> rcases hsub r hr' with rfl | hr
      · exact Nat.le_add_right _ w
      · exact (hnear r hr).1
      · exact (hnear q hq).2
      · exact h q hq r hr
  | dequeue p =>
      refine within_of_subset h rfl fun q hq => ?_
      rcases mem_active.mp hq with hq | hq
      · exact mem_active.mpr (Or.inl (Finset.mem_of_mem_erase hq))
      · exact mem_active.mpr (Or.inr hq)
  | pick o =>
      cases o with
      | none =>
          refine within_of_subset h rfl fun q hq => ?_
          rcases mem_active.mp hq with hq | hq
          · exact mem_active.mpr (Or.inl hq)
          · cases hq
      | some p =>
          obtain ⟨hp, hleast⟩ := hmin _ rfl
          have hsub : ∀ q ∈ (a.next big (.pick (some p))).active,
              q ∈ a.queued := by
            intro q hq
            rcases mem_active.mp hq with hq | hq
            · exact hq
            · cases hq
              exact hp
          have hself : (a.next big (.pick (some p))).stride p
              = a.stride p + big / a.priority p :=
            Function.update_self p _ _
          have hother : ∀ q, q ≠ p →
              (a.next big (.pick (some p))).stride q = a.stride q :=
            fun q hq => Function.update_of_ne hq _ _
          have hact : ∀ q ∈ a.queued, q ∈ a.active := fun q hq =>
            mem_active.mpr (Or.inl hq)
          intro q hq r hr
          have hq := hsub q hq
          have hr := hsub r hr
          by_cases hqp : q = p
          · by_cases hrp : r = p
            · rw [hqp, hrp]
              exact Nat.le_add_right _ w
            · rcases hshort with hstep | halone
              · have hpr := hleast r hr
                rw [hqp, hself, hother r hrp]
                omega
              · rw [halone, Finset.mem_singleton] at hr
                exact absurd hr hrp
          · by_cases hrp : r = p
            · have hqr := h q (hact q hq) p (hact p hp)
              rw [hrp, hself, hother q hqp]
              exact Nat.le_trans hqr
                (Nat.add_le_add_right (Nat.le_add_right _ _) w)
            · rw [hother q hqp, hother r hrp]
              exact h q (hact q hq) r (hact r hr)
  | tick p => exact h
  | setPriority p k => exact h

-- =========================================================== waiting

/-- The priorities are at most `big`, so that every move is at least 1. -/
def Bounded (big : Nat) (a : Strides ν) : Prop :=
  ∀ p, a.priority p ≤ big

theorem Bounded.next (h : Bounded big a) (hbig : 2 ^ 32 ≤ big + 1) :
    Bounded big (a.next big op) := by
  intro q
  cases op with
  | pick o => cases o <;> exact h q
  | setPriority p k =>
      by_cases hq : q = p
      · have hself : (a.next big (.setPriority p k)).priority q
            = if k = 0 then 1 else k.toNat := by
          rw [hq]
          exact Function.update_self p _ _
        have hk := k.isLt
        rw [hself]
        split <;> omega
      · have hother : (a.next big (.setPriority p k)).priority q
            = a.priority q := Function.update_of_ne hq _ _
        rw [hother]
        exact h q
  | _ => exact h q

/-- Nothing is picked before the process picked last is off the queue. -/
theorem no_pick_while_pending {ops : List (Op ν)}
    (hrun : Run (Step big w) a ops a') (hcur : a.current = some q)
    (hq : q ∈ a.queued) (hstay : .dequeue q ∉ ops) (o : Option ν) :
    .pick o ∉ ops := by
  induction hrun with
  | nil => exact List.not_mem_nil
  | @cons s t u op ops hstep _ ih =>
      have hpending : s.Pending := ⟨q, hcur, hq⟩
      rw [List.mem_cons, not_or] at hstay ⊢
      obtain ⟨hne, hstay⟩ := hstay
      cases hstep with
      | call hallowed =>
          cases op with
          | enqueue p => exact absurd hpending hallowed.2.1
          | dequeue p =>
              have hp := hallowed.2 hpending
              rw [hcur] at hp
              cases hp
              exact absurd rfl hne
          | pick o => exact absurd hpending hallowed.1
          | tick p => exact ⟨by rintro ⟨⟩, ih hcur hq hstay⟩
          | setPriority p k => exact ⟨by rintro ⟨⟩, ih hcur hq hstay⟩

/-- A process is picked while `q` waits only as long as its stride has not
passed that of `q`. -/
theorem count_pick_le {ops : List (Op ν)} (hbig : 2 ^ 32 ≤ big + 1)
    (hrun : Run (Step big w) a ops a') (hbounded : Bounded big a)
    (hq : q ∈ a.queued) (hstay : .dequeue q ∉ ops) (p : ν) :
    ops.count (.pick (some p)) ≤ a.stride q + 1 - a.stride p := by
  induction hrun with
  | nil => exact Nat.zero_le _
  | @cons s t u op ops hstep hrest ih =>
      rw [List.mem_cons, not_or] at hstay
      obtain ⟨hne, hstay⟩ := hstay
      cases hstep with
      | call hallowed hmin =>
          have ih := ih (hbounded.next hbig)
          cases op with
          | enqueue r =>
              rw [List.count_cons_of_ne (by rintro ⟨⟩)]
              exact ih (Finset.mem_insert_of_mem hq) hstay
          | dequeue r =>
              rw [List.count_cons_of_ne (by rintro ⟨⟩)]
              refine ih (Finset.mem_erase.mpr ⟨?_, hq⟩) hstay
              rintro rfl
              exact hne rfl
          | tick r =>
              rw [List.count_cons_of_ne (by rintro ⟨⟩)]
              exact ih hq hstay
          | setPriority r k =>
              rw [List.count_cons_of_ne (by rintro ⟨⟩)]
              exact ih hq hstay
          | pick o =>
              cases o with
              | none =>
                  rw [List.count_cons_of_ne (by rintro ⟨⟩)]
                  exact ih hq hstay
              | some r =>
                  obtain ⟨hr, hleast⟩ := hmin _ rfl
                  have hrq := hleast q hq
                  have hmove : 0 < big / s.priority r :=
                    Nat.div_pos (hbounded r) (hallowed.2 r hr)
                  by_cases hrq' : r = q
                  · -- `q` itself: it is pending from here on
                    have hrest' : .pick (some p) ∉ ops :=
                      no_pick_while_pending hrest
                        (congrArg some hrq') hq hstay (some p)
                    have hzero := List.count_eq_zero.mpr hrest'
                    by_cases hrp : r = p
                    · subst hrp
                      rw [List.count_cons_self, hzero]
                      omega
                    · rw [List.count_cons_of_ne (by simpa using hrp), hzero]
                      exact Nat.zero_le _
                  · have ih := ih hq hstay
                    have hsame : (s.next big (.pick (some r))).stride q
                        = s.stride q := Function.update_of_ne (Ne.symm hrq') _ _
                    rw [hsame] at ih
                    by_cases hrp : r = p
                    · subst hrp
                      have hself : (s.next big (.pick (some r))).stride r
                          = s.stride r + big / s.priority r :=
                        Function.update_self r _ _
                      rw [hself] at ih
                      rw [List.count_cons_self]
                      generalize big / s.priority r = d at hmove ih
                      omega
                    · have hother : (s.next big (.pick (some r))).stride p
                          = s.stride p :=
                        Function.update_of_ne (Ne.symm hrp) _ _
                      rw [hother] at ih
                      rw [List.count_cons_of_ne (by simpa using hrp)]
                      exact ih

/-- A process whose stride is far below that of a waiting process does not
come back. -/
theorem count_pick_far {ops : List (Op ν)} (hrun : Run (Step big w) a ops a')
    (hq : q ∈ a.queued) (hstay : .dequeue q ∉ ops) (hp : p ∉ a.active)
    (hfar : a.stride p + w < a.stride q) : .pick (some p) ∉ ops := by
  induction hrun with
  | nil => exact List.not_mem_nil
  | @cons s t u op ops hstep hrest ih =>
      rw [List.mem_cons, not_or] at hstay ⊢
      obtain ⟨hne, hstay⟩ := hstay
      rw [mem_active, not_or] at hp
      obtain ⟨hpq, hpc⟩ := hp
      have hqp : q ≠ p := by
        rintro rfl
        exact hpq hq
      cases hstep with
      | call hallowed hmin =>
          cases op with
          | enqueue r =>
              -- it is too far below to come in
              have hrp : p ≠ r := by
                rintro rfl
                rcases hallowed.2.2 with hcur | hnear
                · exact hpc hcur
                · have hin := (hnear q (mem_active.mpr (Or.inl hq))).2
                  omega
              refine ⟨by rintro ⟨⟩, ih (Finset.mem_insert_of_mem hq) hstay ?_ hfar⟩
              rw [mem_active, not_or]
              refine ⟨fun hin => ?_, fun hin => ?_⟩
              · exact hpq ((Finset.mem_insert.mp hin).resolve_left hrp)
              · have hcur : (if s.current = some r then none else s.current)
                    = some p := hin
                split at hcur
                · cases hcur
                · exact hpc hcur
          | dequeue r =>
              refine ⟨by rintro ⟨⟩,
                ih (Finset.mem_erase.mpr ⟨?_, hq⟩) hstay ?_ hfar⟩
              · rintro rfl
                exact hne rfl
              · rw [mem_active, not_or]
                exact ⟨fun hin => hpq (Finset.mem_of_mem_erase hin), hpc⟩
          | tick r =>
              exact ⟨by rintro ⟨⟩, ih hq hstay (fun hin => hpq
                ((mem_active.mp hin).resolve_right hpc)) hfar⟩
          | setPriority r k =>
              exact ⟨by rintro ⟨⟩, ih hq hstay (fun hin => hpq
                ((mem_active.mp hin).resolve_right hpc)) hfar⟩
          | pick o =>
              cases o with
              | none =>
                  refine ⟨by rintro ⟨⟩, ih hq hstay (fun hin => ?_) hfar⟩
                  rcases mem_active.mp hin with hin | hin
                  · exact hpq hin
                  · cases hin
              | some r =>
                  obtain ⟨hr, -⟩ := hmin _ rfl
                  have hrp : p ≠ r := by
                    rintro rfl
                    exact hpq hr
                  have hpick : Op.pick (some p) ≠ .pick (some r) := by
                    intro heq
                    cases heq
                    exact hrp rfl
                  by_cases hrq : r = q
                  · exact ⟨hpick, no_pick_while_pending hrest
                      (congrArg some hrq) hq hstay (some p)⟩
                  · have hpsame : (s.next big (.pick (some r))).stride p
                        = s.stride p := Function.update_of_ne hrp _ _
                    have hqsame : (s.next big (.pick (some r))).stride q
                        = s.stride q :=
                      Function.update_of_ne (Ne.symm hrq) _ _
                    refine ⟨hpick, ih hq hstay (fun hin => ?_) ?_⟩
                    · rcases mem_active.mp hin with hin | hin
                      · exact hpq hin
                      · cases hin
                        exact hrp rfl
                    · rw [hpsame, hqsame]
                      exact hfar

/-- While a process waits, no other is picked more than `w + 1` times. -/
theorem count_pick_waiting {ops : List (Op ν)} (hbig : 2 ^ 32 ≤ big + 1)
    (hrun : Run (Step big w) a ops a') (hbounded : Bounded big a)
    (hwithin : Within w a) (hq : q ∈ a.queued) (hstay : .dequeue q ∉ ops)
    (p : ν) : ops.count (.pick (some p)) ≤ w + 1 := by
  have hle := count_pick_le hbig hrun hbounded hq hstay p
  by_cases hp : p ∈ a.active
  · have hnear := hwithin q (mem_active.mpr (Or.inl hq)) p hp
    omega
  · by_cases hfar : a.stride p + w < a.stride q
    · rw [List.count_eq_zero.mpr (count_pick_far hrun hq hstay hp hfar)]
      exact Nat.zero_le _
    · omega

/-- The processes a run picks, in order. -/
def picked : List (Op ν) → List ν
  | [] => []
  | .pick (some p) :: ops => p :: picked ops
  | _ :: ops => picked ops

theorem count_picked (ops : List (Op ν)) (p : ν) :
    (picked ops).count p = ops.count (.pick (some p)) := by
  induction ops using picked.induct with
  | case1 => rfl
  | case2 q ops ih =>
      rw [picked]
      by_cases hq : q = p
      · rw [hq, List.count_cons_self, List.count_cons_self, ih]
      · rw [List.count_cons_of_ne hq, ih, List.count_cons_of_ne]
        intro heq
        cases heq
        exact hq rfl
  | case3 op ops hop ih =>
      rw [picked, ih, List.count_cons_of_ne]
      · exact hop p
      · exact hop

/-- No process waits forever: while it waits, each process there is is
picked at most `w + 1` times. -/
theorem length_picked_waiting {ops : List (Op ν)} (hbig : 2 ^ 32 ≤ big + 1)
    (hrun : Run (Step big w) a ops a') (hbounded : Bounded big a)
    (hwithin : Within w a) (hq : q ∈ a.queued) (hstay : .dequeue q ∉ ops) :
    (picked ops).length ≤ (w + 1) * (picked ops).toFinset.card := by
  rw [← List.sum_toFinset_count_eq_length]
  calc ∑ p ∈ (picked ops).toFinset, (picked ops).count p
      ≤ ∑ _p ∈ (picked ops).toFinset, (w + 1) := by
        apply Finset.sum_le_sum
        intro p _
        rw [count_picked]
        exact count_pick_waiting hbig hrun hbounded hwithin hq hstay p
    _ = (w + 1) * (picked ops).toFinset.card := by
        rw [Finset.sum_const_nat fun _ _ => rfl, Nat.mul_comm]

end Strides

end Ucore.Sched

namespace Ucore.Sched

variable {ν : Type} [DecidableEq ν]

/-- The scheduler and the unbounded strides. -/
structure World (ν : Type) where
  sched : Sched ν
  strides : Strides ν

/-- The state a call leaves. `pick_next` returns what the label says. -/
def exec (fuel : Nat) (s : Sched ν) : Op ν → Option (Sched ν)
  | .enqueue p => strideEnqueue fuel p s
  | .dequeue p => strideDequeue fuel p s
  | .pick o =>
      match stridePickNext s with
      | none => none
      | some (o', s') => if o' = o then some s' else none
  | .tick p => some (strideProcTick p s)
  | .setPriority p k => some (lab6SetPriority p k s)

/-- A call that its callers may make. A process enters the queue within
`BIG_STRIDE` of the others. -/
def Step (W : World ν) (op : Op ν) (W' : World ν) : Prop :=
  W.strides.Allowed bigStride.toNat op
    ∧ (∃ fuel, exec fuel W.sched op = some W'.sched)
    ∧ W'.strides = W.strides.next bigStride.toNat op

/-- The run queue was initialised, and the strides in memory are the
unbounded ones as far as 32 bits hold them. -/
structure Start (W : World ν) : Prop where
  init : ∃ s, W.sched = strideInit s
  stride : ∀ p, (W.sched.procs p).lab6Stride
    = BitVec.ofNat 32 (W.strides.stride p)
  priority : ∀ p, (W.sched.procs p).lab6Priority.toNat
    = W.strides.priority p
  queued : W.strides.queued = ∅
  current : W.strides.current = none

/-- `proc_stride_comp_f` orders any two queued processes as their unbounded
strides are. -/
def Ordered (W : World ν) : Prop :=
  ∀ p ∈ W.strides.queued, ∀ q ∈ W.strides.queued,
    (procStrideCompF W.sched.procs p q = -1
        ↔ W.strides.stride p < W.strides.stride q)
      ∧ (procStrideCompF W.sched.procs p q = 0
        ↔ W.strides.stride p = W.strides.stride q)
      ∧ (procStrideCompF W.sched.procs p q = 1
        ↔ W.strides.stride q < W.strides.stride p)

/-- The next pick is one of least unbounded stride. -/
def PicksLeast (W : World ν) : Prop :=
  ¬ W.strides.Pending → ∀ {o s'}, stridePickNext W.sched = some (o, s') →
    W.strides.Minimal o

/-- Every call the callers may make returns. -/
structure Returns (W : World ν) : Prop where
  enqueue : ∀ p, W.strides.Allowed bigStride.toNat (.enqueue p) →
    ∃ fuel s', strideEnqueue fuel p W.sched = some s'
  dequeue : ∀ p, W.strides.Allowed bigStride.toNat (.dequeue p) →
    ∃ fuel s', strideDequeue fuel p W.sched = some s'
  pick : ∀ o, W.strides.Allowed bigStride.toNat (.pick o) →
    ∃ o' s', stridePickNext W.sched = some (o', s')

/-- The strides fit a signed comparison: a process enters less than 2^31
from the others, and the one picked has a priority of at least 2 or is
alone. -/
def Fits (W : World ν) : Op ν → Prop
  | .enqueue p => W.strides.current = some p
      ∨ W.strides.Near (bigStride.toNat / 2) p
  | .pick (some p) => 2 ≤ (W.sched.procs p).lab6Priority.toNat
      ∨ W.strides.queued = {p}
  | _ => True

/-- A call that fits. -/
def StepFits (W : World ν) (op : Op ν) (W' : World ν) : Prop :=
  Step W op W' ∧ Fits W op

-- ================================================= runs that compute

namespace Strides

instance (a : Strides ν) : Decidable a.Pending :=
  decidable_of_iff (∃ p ∈ a.queued, a.current = some p)
    ⟨fun ⟨p, hp, hcur⟩ => ⟨p, hcur, hp⟩, fun ⟨p, hcur, hp⟩ => ⟨p, hp, hcur⟩⟩

instance (w : Nat) (a : Strides ν) (p : ν) : Decidable (a.Near w p) :=
  inferInstanceAs (Decidable (∀ q ∈ a.active,
    a.stride p ≤ a.stride q + w ∧ a.stride q ≤ a.stride p + w))

instance (w : Nat) (a : Strides ν) : (op : Op ν) → Decidable (a.Allowed w op)
  | .enqueue p => inferInstanceAs (Decidable (p ∉ a.queued ∧ ¬ a.Pending
      ∧ (a.current = some p ∨ a.Near w p)))
  | .dequeue p => inferInstanceAs (Decidable (p ∈ a.queued
      ∧ (a.Pending → a.current = some p)))
  | .pick _ => inferInstanceAs (Decidable (¬ a.Pending
      ∧ ∀ p ∈ a.queued, 1 ≤ a.priority p))
  | .tick _ => isTrue trivial
  | .setPriority _ _ => isTrue trivial

end Strides

instance (W : World ν) : (op : Op ν) → Decidable (Fits W op)
  | .enqueue p => inferInstanceAs (Decidable (W.strides.current = some p
      ∨ W.strides.Near (bigStride.toNat / 2) p))
  | .pick (some p) => inferInstanceAs (Decidable
      (2 ≤ (W.sched.procs p).lab6Priority.toNat ∨ W.strides.queued = {p}))
  | .pick none => isTrue trivial
  | .dequeue _ => isTrue trivial
  | .tick _ => isTrue trivial
  | .setPriority _ _ => isTrue trivial

/-- Calls one after the other, as long as each is allowed and meets `P`. -/
def runTo (P : World ν → Op ν → Prop) [∀ W op, Decidable (P W op)]
    (fuel : Nat) (W : World ν) : List (Op ν) → Option (World ν)
  | [] => some W
  | op :: ops =>
      match exec fuel W.sched op with
      | none => none
      | some s =>
          if W.strides.Allowed bigStride.toNat op ∧ P W op then
            runTo P fuel ⟨s, W.strides.next bigStride.toNat op⟩ ops
          else none

theorem runTo_run {P : World ν → Op ν → Prop} [∀ W op, Decidable (P W op)]
    {fuel : Nat} {W W' : World ν} {ops : List (Op ν)}
    (h : runTo P fuel W ops = some W') :
    Run (fun W op W' => Step W op W' ∧ P W op) W ops W' := by
  induction ops generalizing W with
  | nil =>
      cases h
      exact .nil _
  | cons op ops ih =>
      rw [runTo] at h
      cases hexec : exec fuel W.sched op with
      | none => rw [hexec] at h; cases h
      | some s =>
          rw [hexec] at h
          dsimp only at h
          split at h
          case isFalse => cases h
          case isTrue hok =>
              exact .cons ⟨⟨hok.1, ⟨fuel, hexec⟩, rfl⟩, hok.2⟩ (ih h)

end Ucore.Sched
