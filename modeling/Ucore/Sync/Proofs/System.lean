/-
Threads on the kernel's semaphores simulate threads on counting semaphores
that hand over their units. The value, the balance and the order of the
waiters follow from the laws of those.
-/
import Ucore.Sync.System
import Ucore.Sync.Proofs.Sem

namespace Ucore.Sync

open Ring

variable {σ ν : Type} [DecidableEq σ] [DecidableEq ν] {W W' : World σ ν}
  {a : Sema σ ν} {op : Sema.Op σ ν} {ops : List (Sema.Op σ ν)} {s : σ}
  {t w : ν} {q : List ν}

-- ==================================================== the simulation

/-- The memory holds the semaphores `a`, and a thread is in `schedule`
exactly when it waits or was handed a unit. -/
structure Rel (W : World σ ν) (a : Sema σ ν) : Prop where
  holds : Holds W.mem a
  pc : a.Places W.pc

/-- A runnable thread in `schedule` was handed a unit. -/
theorem Rel.granted (h : Rel W a) (hpc : W.pc t = some s)
    (hrun : (W.mem.procs t).state = .runnable) : a.granted t = some s := by
  refine ((h.pc t s).1 hpc).resolve_left fun hq => ?_
  rw [(h.holds.queued s t hq).1] at hrun
  cases hrun

/-- What `up` does, whoever waits. -/
theorem Rel.up (h : Rel W a) (ht : Runs W t)
    (hmax : W.mem.value s < intMax ∨ a.queue s ≠ []) :
    ∃ m, exec W (.up t s (a.queue s).head?) = some { W with mem := m }
      ∧ Rel { W with mem := m } (a.up s) := by
  have hfirst := waitQueueFirst_spec h.holds s
  cases hq : a.queue s with
  | nil =>
      have hup := up_eq_put h.holds hq
        (hmax.resolve_right (not_not.2 hq))
      rw [hq] at hfirst
      refine ⟨W.mem.setValue s (W.mem.value s + 1), ?_, ?_⟩
      · rw [exec, if_pos ht, hfirst, hup]
        dsimp only
        rw [if_pos rfl]
      · rw [Sema.up_nil hq]
        exact ⟨h.holds.put hq, h.pc⟩
  | cons w q =>
      have hup := up_eq_grant h.holds hq
      rw [hq] at hfirst
      refine ⟨released W.mem w, ?_, ?_⟩
      · rw [exec, if_pos ht, hfirst, hup]
        dsimp only
        rw [if_pos rfl]
      · rw [Sema.up_cons hq]
        have hplaces := h.pc.up h.holds.tight s
        rw [Sema.up_cons hq] at hplaces
        exact ⟨h.holds.grant hq, hplaces⟩

/-- What `down` does. -/
theorem Rel.down (h : Rel W a) (ht : Runs W t) (s : σ) :
    ∃ W', exec W (.down t s (decide (0 < a.value s))) = some W'
      ∧ Rel W' (a.next (.down t s (decide (0 < a.value s)))) := by
  have hidle := h.pc.idle ht.2
  have hvalue := h.holds.value s
  by_cases hv : 0 < a.value s
  · have hv' : 0 < W.mem.value s := by omega
    refine ⟨{ W with mem := W.mem.setValue s (W.mem.value s - 1) }, ?_, ?_⟩
    · rw [exec, if_pos ht, downEnter_eq_take t hv', decide_eq_true hv]
      rfl
    · rw [decide_eq_true hv]
      exact ⟨h.holds.take hv', h.pc⟩
  · have hv' : ¬ 0 < W.mem.value s := by omega
    refine ⟨{ mem := blocked W.mem t s
              pc := Function.update W.pc t (some s) }, ?_, ?_⟩
    · rw [exec, if_pos ht, downEnter_eq_block hv', decide_eq_false hv]
      rfl
    · rw [decide_eq_false hv]
      exact ⟨h.holds.block hidle hv', h.pc.block ht.2 s⟩

/-- What `try_down` does. -/
theorem Rel.tryDown (h : Rel W a) (ht : Runs W t) (s : σ) :
    ∃ W', exec W (.tryDown t s (decide (0 < a.value s))) = some W'
      ∧ Rel W' (a.next (.tryDown t s (decide (0 < a.value s)))) := by
  have hvalue := h.holds.value s
  by_cases hv : 0 < a.value s
  · have hv' : 0 < W.mem.value s := by omega
    refine ⟨{ W with mem := W.mem.setValue s (W.mem.value s - 1) }, ?_, ?_⟩
    · rw [exec, if_pos ht, tryDown_eq_take hv', decide_eq_true hv]
      rfl
    · rw [decide_eq_true hv]
      exact ⟨h.holds.take hv', h.pc⟩
  · have hv' : ¬ 0 < W.mem.value s := by omega
    refine ⟨W, ?_, ?_⟩
    · rw [exec, if_pos ht, tryDown_eq_refuse hv', decide_eq_false hv]
      rfl
    · rw [decide_eq_false hv]
      exact h

/-- What the rest of `down` does. -/
theorem Rel.resume (h : Rel W a) (hpc : W.pc t = some s)
    (hrun : (W.mem.procs t).state = .runnable) :
    exec W (.resume t s)
        = some { W with pc := Function.update W.pc t none }
      ∧ Rel { W with pc := Function.update W.pc t none } (a.resume t) := by
  have hg := h.granted hpc hrun
  constructor
  · rw [exec, if_pos ⟨hrun, hpc⟩, downLeave_eq h.holds hg]
  · exact ⟨h.holds.resume t, h.pc.resume h.holds.tight hg⟩

/-- A step elsewhere in the kernel is none on the semaphores. -/
theorem Rel.skip {m : State σ ν} (h : Rel W a) (hm : Elsewhere W t m) :
    Rel { W with mem := m } a := by
  have hset : ∀ p, a.Idle t → Rel { W with mem := W.mem.setProc t p } a := by
    intro p hidle
    refine ⟨h.holds.congr_procs fun u hu => ?_, h.pc⟩
    have hut : u ≠ t := fun heq => hu (heq ▸ hidle)
    exact Function.update_of_ne hut p W.mem.procs
  cases hm with
  | sleep ws ht _ => exact hset _ (h.pc.idle ht.2)
  | exit ht => exact hset _ (h.pc.idle ht.2)
  | wakeup hstate hcall =>
      have hidle : a.Idle t := by
        have hbusy : ∀ p : Proc, p.state ≠ .uninit →
            p.waitState &&& wtInterrupted = 0 → W.mem.procs t ≠ p := by
          intro p hp hw heq
          rw [heq] at hstate
          exact hstate.elim hp (fun hne => hne hw)
        constructor
        · cases hg : a.granted t with
          | none => rfl
          | some s =>
              exact absurd (h.holds.granted s t hg).2.2
                (hbusy _ (by decide) (by decide))
        · intro s hs
          exact absurd (h.holds.queued s t hs).1
            (hbusy _ (by decide) (by decide))
      simp only [wakeupProc, Call.bind_eq_some, Call.get_eq_some,
        Call.assert_eq_some] at hcall
      obtain ⟨m₁, m₂, ⟨rfl, rfl⟩, -, m₃, ⟨-, rfl⟩, hcall⟩ := hcall
      split at hcall
      case isTrue =>
          rw [Call.modify_eq_some] at hcall
          rw [hcall]
          exact hset _ hidle
      case isFalse =>
          rw [Call.pure_eq_some] at hcall
          rw [hcall.2]
          exact h

/-- The label of a call says how it ended. -/
theorem exec_inj {op' : Sema.Op σ ν} {W'' : World σ ν} {took took' : Bool}
    (hop : op = .down t s took ∧ op' = .down t s took'
      ∨ op = .tryDown t s took ∧ op' = .tryDown t s took')
    (h : exec W op = some W') (h' : exec W op' = some W'') :
    took = took' := by
  rcases hop with ⟨rfl, rfl⟩ | ⟨rfl, rfl⟩
  all_goals
    simp only [exec] at h h'
    split at h
    case isFalse => cases h
    case isTrue ht =>
        rw [if_pos ht] at h'
        split at h
        case h_2 => cases h
        case h_1 hcall =>
            rw [hcall] at h'
            dsimp only at h'
            split at h
            case isFalse => cases h
            case isTrue heq =>
                split at h'
                case isFalse => cases h'
                case isTrue heq' => exact heq.symm.trans heq'

theorem runs_of_exec (h : exec W op = some W') :
    match op with
    | .up t _ _ => Runs W t
    | .down t _ _ => Runs W t
    | .tryDown t _ _ => Runs W t
    | .resume t s => (W.mem.procs t).state = .runnable ∧ W.pc t = some s
    | .skip _ => False := by
  cases op with
  | skip t => cases h
  | _ =>
      simp only [exec] at h
      split at h
      case isTrue ht => exact ht
      case isFalse => cases h

/-- An `up` that returned found the oldest waiter, or room to count. -/
theorem Rel.up_exec {w : Option ν} (h : Rel W a)
    (hexec : exec W (.up t s w) = some W') :
    w = (a.queue s).head?
      ∧ (W.mem.value s < intMax ∨ a.queue s ≠ []) := by
  have ht : Runs W t := runs_of_exec hexec
  rw [exec, if_pos ht, waitQueueFirst_spec h.holds s] at hexec
  cases hup : Sync.up s W.mem with
  | none => rw [hup] at hexec; cases hexec
  | some r =>
      obtain ⟨u, m⟩ := r
      rw [hup] at hexec
      dsimp only at hexec
      split at hexec
      case isFalse => cases hexec
      case isTrue hw =>
          refine ⟨hw.symm, ?_⟩
          by_cases hq : a.queue s = []
          · exact Or.inl (lt_intMax_of_up h.holds hq hup)
          · exact Or.inr hq

/-- Every step is one of the counting semaphores, with the same label. -/
theorem Rel.step (h : Rel W a) (hstep : Step W op W') :
    Sema.Step a op (a.next op) ∧ Rel W' (a.next op) := by
  cases hstep with
  | skip hm => exact ⟨⟨trivial, rfl⟩, h.skip hm⟩
  | call hexec =>
      have hruns := runs_of_exec hexec
      cases op with
      | up t s w =>
          obtain ⟨rfl, hmax⟩ := h.up_exec hexec
          obtain ⟨m, hup, hrel⟩ := h.up hruns hmax
          rw [hup] at hexec
          cases hexec
          exact ⟨⟨⟨h.pc.idle hruns.2, rfl⟩, rfl⟩, hrel⟩
      | down t s took =>
          obtain ⟨W'', hdown, hrel⟩ := h.down hruns s
          have htook := exec_inj (Or.inl ⟨rfl, rfl⟩) hexec hdown
          rw [← htook] at hdown hrel
          rw [hdown] at hexec
          cases hexec
          refine ⟨⟨⟨h.pc.idle hruns.2, ?_⟩, rfl⟩, hrel⟩
          rw [htook, decide_eq_true_iff]
      | tryDown t s took =>
          obtain ⟨W'', hdown, hrel⟩ := h.tryDown hruns s
          have htook := exec_inj (Or.inr ⟨rfl, rfl⟩) hexec hdown
          rw [← htook] at hdown hrel
          rw [hdown] at hexec
          cases hexec
          refine ⟨⟨⟨h.pc.idle hruns.2, ?_⟩, rfl⟩, hrel⟩
          rw [htook, decide_eq_true_iff]
      | resume t s =>
          obtain ⟨hrun, hpc⟩ := hruns
          obtain ⟨hres, hrel⟩ := h.resume hpc hrun
          rw [hres] at hexec
          cases hexec
          exact ⟨⟨h.granted hpc hrun, rfl⟩, hrel⟩
      | skip t => exact hruns.elim

-- ============================================================== runs

theorem Start.rel (h : Start W) :
    ∃ a : Sema σ ν, Rel W a ∧ (∀ s, a.queue s = [])
      ∧ ∀ s, W.mem.value s = a.value s := by
  have hval : ∀ s, W.mem.value s = ((W.mem.value s).toNat : Int) := by
    intro s
    obtain ⟨v, hv, hcall⟩ := h.init s
    have hvalue := (semInit_fields hcall).1
    omega
  have hring : ∀ s, IsRing W.mem.links (.waitHead s) [] := by
    intro s
    obtain ⟨v, -, hcall⟩ := h.init s
    exact (semInit_fields hcall).2
  refine ⟨⟨fun s => (W.mem.value s).toNat, fun _ => [], fun _ => none⟩,
    ⟨⟨hval, hring, (fun _ _ h => by cases h), (fun _ _ h => by cases h), ?_⟩,
    fun t s => ?_⟩, fun _ => rfl, hval⟩
  · exact ⟨fun _ _ => rfl, fun _ => List.nodup_nil, (fun _ _ _ h => by cases h),
      fun _ _ h => by cases h⟩
  · rw [h.outside t]
    simp

theorem Rel.run (h : Rel W a) (hrun : Run Step W ops W') :
    ∃ b, Run Sema.Step a ops b ∧ Rel W' b := by
  have hstep : ∀ {W W' : World σ ν} {op : Sema.Op σ ν} {a : Sema σ ν},
      Rel W a → Step W op W' → ∃ b, Sema.Step a op b ∧ Rel W' b :=
    fun h hs => ⟨_, (h.step hs).1, (h.step hs).2⟩
  exact hrun.simulates hstep h

/-- What `up` does to the queue the memory holds. -/
theorem Rel.releases (h : Rel W a) (s : σ) : Releases W s (a.queue s) := by
  intro t w W'' hstep
  cases hstep with
  | call hexec =>
      have ht : Runs W t := runs_of_exec hexec
      obtain ⟨rfl, hmax⟩ := h.up_exec hexec
      have hrel := (h.step (.call hexec)).2
      rw [exec, if_pos ht, waitQueueFirst_spec h.holds s] at hexec
      cases hq : a.queue s with
      | nil =>
          rw [hq, up_eq_put h.holds hq
            (hmax.resolve_right (not_not.2 hq))] at hexec
          cases hexec
          exact ⟨rfl, rfl⟩
      | cons x q' =>
          rw [hq, up_eq_grant h.holds hq] at hexec
          dsimp only at hexec
          rw [if_pos rfl] at hexec
          cases hexec
          have hring := hrel.holds.ring s
          have hnext : a.next (.up t s (a.queue s).head?)
              = a.grant s x q' := Sema.up_cons hq
          rw [hnext, Sema.grant_queue, if_pos rfl] at hring
          refine ⟨rfl, rfl, hring, ?_, fun y hy => ?_⟩
          · simp [released, State.setProc]
          · simp [released, State.setProc, State.setWait, State.setLinks, hy]

/-- Calls return. -/
theorem Rel.returns (h : Rel W a) : Returns W := by
  refine ⟨fun t s ht hmax => ?_, fun t s ht => ?_, fun t s ht => ?_,
    fun t s hpc hrun => ?_⟩
  · have hmax' : W.mem.value s < intMax ∨ a.queue s ≠ [] := by
      refine hmax.imp id fun hne hq => hne ?_
      have hring := h.holds.ring s
      rw [hq] at hring
      exact (listEmpty_ring hring).2 rfl
    obtain ⟨m, hup, -⟩ := h.up ht hmax'
    exact ⟨_, _, .call hup⟩
  · obtain ⟨W', hdown, -⟩ := h.down ht s
    exact ⟨_, W', .call hdown⟩
  · obtain ⟨W', hdown, -⟩ := h.tryDown ht s
    exact ⟨_, W', .call hdown⟩
  · exact ⟨_, .call (h.resume hpc hrun).1⟩

/-- The semaphores are correct in every run of any number of threads. -/
theorem semaphores_correct (hstart : Start W) (hrun : Run Step W ops W') :
    (∀ s, ∃ q, Correct W ops W' s q) ∧ Returns W' := by
  obtain ⟨a, hrel, hqueue, hvalue⟩ := hstart.rel
  obtain ⟨b, hrun', hrel'⟩ := hrel.run hrun
  refine ⟨fun s => ⟨b.queue s, ?_⟩, hrel'.returns⟩
  have hholds := hrel'.holds
  have hval := hholds.value s
  refine ⟨hholds.ring s, by omega, fun hpos => ?_, ?_, ?_, hrel'.releases s,
    fun t ht => ?_⟩
  · exact hholds.tight.free s (by omega)
  · have hbal := Sema.run_balance (s := s) hrun'
    rw [hvalue s, hval]
    omega
  · have hfifo := Sema.run_fifo (s := s) hrun'
    rw [hqueue s, List.nil_append] at hfifo
    exact hfifo
  · exact ⟨by rw [(hholds.queued s t ht).1],
      (hrel'.pc t s).2 (Or.inl ht)⟩

/-- A semaphore with one unit, and two threads. -/
def oneUnit : World Unit Bool where
  mem :=
    { value := fun _ => 1
      links := ⟨id, id⟩
      waits := fun _ => ⟨none, 0, none⟩
      procs := fun _ => ⟨.runnable, 0⟩ }
  pc := fun _ => none

theorem oneUnit_start : Start oneUnit := by
  refine ⟨fun s => ⟨1, by decide, ?_⟩, fun _ => rfl⟩
  have hlinks : listInit oneUnit.mem.links (.waitHead s)
      = oneUnit.mem.links := by
    simp [listInit, Links.setNext, Links.setPrev, oneUnit]
  simp only [semInit, waitQueueInit, Call.bind_eq_some, Call.modify_eq_some]
  refine ⟨(), _, rfl, ?_⟩
  simp only [State.setLinks, State.setValue, hlinks]
  simp [oneUnit]

/-- The second thread is handed the unit that the first one puts back. -/
theorem semaphores_correct_handed :
    ∃ W', Run Step oneUnit [.down false () true, .down true () false,
        .up false () (some true), .resume true ()] W'
      ∧ (∀ s, ∃ q, Correct oneUnit [.down false () true, .down true () false,
        .up false () (some true), .resume true ()] W' s q)
      ∧ Returns W' := by
  have hrun : ∃ W', Run Step oneUnit [.down false () true,
      .down true () false, .up false () (some true), .resume true ()] W' :=
    ⟨_, .cons (.call rfl) (.cons (.call rfl) (.cons (.call rfl)
      (.cons (.call rfl) (.nil _))))⟩
  obtain ⟨W', hrun⟩ := hrun
  exact ⟨W', hrun, semaphores_correct oneUnit_start hrun⟩

end Ucore.Sync
