/-
What the semaphore calls do, in terms of counting semaphores that hand
over their units: each call finds its assertions true and makes the
operation on the semaphores the memory holds.
-/
import Ucore.Lib.Semaphore
import Ucore.Sync.Sem

namespace Ucore.Sync

open Ring

variable {σ ν : Type} [DecidableEq σ] [DecidableEq ν] {m m' : State σ ν}
  {a : Sema σ ν} {s r : σ} {t u w : ν} {q : List ν}

-- ====================================================== the relation

/-- The memory holds the semaphores `a`. -/
structure Holds (m : State σ ν) (a : Sema σ ν) : Prop where
  value : ∀ s, m.value s = a.value s
  ring : ∀ s, IsRing m.links (.waitHead s) ((a.queue s).map .waitLink)
  queued : ∀ s t, t ∈ a.queue s → m.procs t = ⟨.sleeping, wtKsem⟩
    ∧ m.waits t = ⟨some t, wtInterrupted, some s⟩
  granted : ∀ s t, a.granted t = some s →
    m.links.next (.waitLink t) = .waitLink t
      ∧ (m.waits t).wakeupFlags = wtKsem
      ∧ m.procs t = ⟨.runnable, 0⟩
  tight : a.Tight

/-- Processes that neither wait nor were handed a unit may change. -/
theorem Holds.congr_procs {procs : ν → Proc} (h : Holds m a)
    (hsame : ∀ t, ¬ a.Idle t → procs t = m.procs t) :
    Holds { m with procs } a := by
  refine ⟨h.value, h.ring, fun s t ht => ?_, fun s t ht => ?_, h.tight⟩
  · have hbusy : ¬ a.Idle t := fun hidle => hidle.2 s ht
    exact ⟨(hsame t hbusy).trans (h.queued s t ht).1, (h.queued s t ht).2⟩
  · have hbusy : ¬ a.Idle t := fun hidle => by
      rw [hidle.1] at ht
      cases ht
    obtain ⟨hnext, hflags, hstate⟩ := h.granted s t ht
    exact ⟨hnext, hflags, (hsame t hbusy).trans hstate⟩

theorem head_ne_link : (.waitHead s : Entry σ ν) ≠ .waitLink t :=
  fun h => by cases h

theorem waitLink_injective :
    Function.Injective (.waitLink : ν → Entry σ ν) :=
  fun _ _ h => Entry.waitLink.inj h

theorem waitLink_mem {xs : List ν} :
    (.waitLink t : Entry σ ν) ∈ .waitHead s :: xs.map .waitLink ↔ t ∈ xs := by
  rw [List.mem_cons, List.mem_map_of_injective waitLink_injective]
  exact ⟨fun h => h.resolve_left (Ne.symm head_ne_link), Or.inr⟩

/-- The rings of two semaphores share no cell. -/
theorem Holds.disjoint (h : Holds m a) (hrs : r ≠ s) (c : Entry σ ν)
    (hc : c ∈ .waitHead s :: (a.queue s).map .waitLink) :
    c ∉ .waitHead r :: (a.queue r).map .waitLink := by
  intro hmem
  cases c with
  | waitHead x =>
      have hheads : ∀ y, (.waitHead x : Entry σ ν)
          ∈ .waitHead y :: (a.queue y).map .waitLink → x = y := by
        intro y hy
        rcases List.mem_cons.1 hy with heq | hy
        · exact Entry.waitHead.inj heq
        · obtain ⟨z, -, hz⟩ := List.mem_map.1 hy
          cases hz
      exact hrs ((hheads r hmem).symm.trans (hheads s hc))
  | waitLink x =>
      exact hrs (h.tight.apart r s x (waitLink_mem.1 hmem)
        (waitLink_mem.1 hc))

-- ========================================================= the queue

/-- What `sem_init` leaves. -/
theorem semInit_fields {m : State σ ν} {v : Int}
    (h : semInit s v m = some ((), m)) :
    m.value s = v ∧ IsRing m.links (.waitHead s) [] := by
  simp only [semInit, waitQueueInit, Call.bind_eq_some,
    Call.modify_eq_some] at h
  obtain ⟨-, m₁, rfl, hm⟩ := h
  have hvalue : m.value s = v := by
    have hfield := congrArg (fun m => State.value m s) hm
    simpa [State.setValue, State.setLinks] using hfield
  have hlinks : m.links = listInit m.links (.waitHead s) :=
    congrArg State.links hm
  refine ⟨hvalue, ?_⟩
  rw [hlinks]
  exact listInit_ring m.links _

/-- `wait_queue_first` finds the oldest waiter. -/
theorem waitQueueFirst_spec (h : Holds m a) (s : σ) :
    waitQueueFirst s m = some ((a.queue s).head?, m) := by
  have hring := h.ring s
  cases hq : a.queue s with
  | nil =>
      rw [hq] at hring
      have hnext : m.links.next (.waitHead s) = .waitHead s :=
        hring.next_head_eq.2 rfl
      refine Call.bind_eq_some.2 ⟨m, m, Call.get_eq_some.2 ⟨rfl, rfl⟩, ?_⟩
      have hle : listNext m.links (.waitHead s) = .waitHead s := hnext
      rw [if_neg (not_not.2 hle)]
      exact Call.pure_eq_some.2 ⟨rfl, rfl⟩
  | cons w q =>
      rw [hq] at hring
      have hcut : IsRing m.links (.waitHead s)
          ([] ++ (w :: q).map .waitLink) := hring
      have hnext : m.links.next (.waitHead s) = .waitLink w :=
        hcut.next_before
      refine Call.bind_eq_some.2 ⟨m, m, Call.get_eq_some.2 ⟨rfl, rfl⟩, ?_⟩
      have hle : listNext m.links (.waitHead s) = .waitLink w := hnext
      rw [hle, if_pos head_ne_link.symm]
      exact Call.bind_eq_some.2 ⟨w, m, Call.pure_eq_some.2 ⟨rfl, rfl⟩,
        Call.pure_eq_some.2 ⟨rfl, rfl⟩⟩

/-- The links of a thread in a queue are not its own. -/
theorem Holds.linked (h : Holds m a) (ht : t ∈ a.queue s) :
    ¬ listEmpty m.links (.waitLink t) := by
  intro hempty
  rw [listEmpty, beq_iff_eq] at hempty
  obtain ⟨pre, suf, hq⟩ := List.append_of_mem ht
  have hring := h.ring s
  rw [hq, List.map_append, List.map_cons] at hring
  have hcut : IsRing m.links (.waitHead s)
      ((pre.map .waitLink ++ [.waitLink t]) ++ suf.map .waitLink) := by
    rw [List.append_assoc]
    exact hring
  have hnext := hcut.next_before
  rw [before_concat] at hnext
  have hself : (.waitLink t : Entry σ ν) = after (.waitHead s)
      (suf.map .waitLink) := hempty.symm.trans hnext
  have hnd := hcut.nodup
  rw [List.append_assoc, List.singleton_append, ← List.cons_append,
    List.nodup_append] at hnd
  rcases List.mem_cons.1
    (after_mem (.waitHead s) (suf.map (.waitLink : ν → Entry σ ν)))
    with heq | hmem
  · rw [← hself] at heq
    cases heq
  · rw [← hself] at hmem
    exact (List.nodup_cons.1 hnd.2.1).1 hmem

-- ================================================================ up

/-- The memory after `__up` released `w`. -/
def released (m : State σ ν) (w : ν) : State σ ν :=
  ((m.setLinks (listDelInit m.links (.waitLink w))).setWait w
    { m.waits w with wakeupFlags := wtKsem }).setProc w
      { state := .runnable, waitState := 0 }

/-- `__up` counts, so there was room to, when nobody waits. -/
theorem lt_intMax_of_up (h : Holds m a) (hq : a.queue s = [])
    (hup : up s m = some ((), m')) : m.value s < intMax := by
  have hfirst := waitQueueFirst_spec h s
  rw [hq] at hfirst
  obtain ⟨first, m₁, hcall, hrest⟩ := Call.bind_eq_some.1 hup
  rw [hfirst] at hcall
  cases hcall
  simp only [valueInc, List.head?_nil, Call.bind_eq_some, Call.get_eq_some,
    Call.assert_eq_some] at hrest
  obtain ⟨m₂, m₃, ⟨rfl, rfl⟩, -, m₄, ⟨hmax, -⟩, -⟩ := hrest
  exact hmax

theorem up_eq_put (h : Holds m a) (hq : a.queue s = [])
    (hmax : m.value s < intMax) :
    up s m = some ((), m.setValue s (m.value s + 1)) := by
  refine Call.bind_eq_some.2 ⟨none, m, ?_, ?_⟩
  · rw [waitQueueFirst_spec h, hq]
    rfl
  · refine Call.bind_eq_some.2 ⟨m, m, Call.get_eq_some.2 ⟨rfl, rfl⟩, ?_⟩
    exact Call.bind_eq_some.2 ⟨(), m, Call.assert_eq_some.2 ⟨hmax, rfl⟩,
      Call.modify_eq_some.2 rfl⟩

/-- `wakeup_wait` of a waiting thread. -/
theorem wakeupWait_eq (h : Holds m a) (hw : w ∈ a.queue s) :
    wakeupWait s w wtKsem true m = some ((), released m w) := by
  obtain ⟨hproc, hwait⟩ := h.queued s w hw
  have hlinked := h.linked hw
  unfold wakeupWait
  rw [if_pos rfl]
  refine Call.bind_eq_some.2
    ⟨(), m.setLinks (listDelInit m.links (.waitLink w)), ?_, ?_⟩
  · refine Call.bind_eq_some.2 ⟨m, m, Call.get_eq_some.2 ⟨rfl, rfl⟩, ?_⟩
    refine Call.bind_eq_some.2
      ⟨(), m, Call.assert_eq_some.2 ⟨⟨hlinked, ?_⟩, rfl⟩,
        Call.modify_eq_some.2 rfl⟩
    rw [hwait]
  · refine Call.bind_eq_some.2 ⟨(), _, Call.modify_eq_some.2 rfl, ?_⟩
    refine Call.bind_eq_some.2 ⟨_, _, Call.get_eq_some.2 ⟨rfl, rfl⟩, ?_⟩
    refine Call.bind_eq_some.2
      ⟨w, _, Call.ofOption_eq_some.2 ⟨?_, rfl⟩, ?_⟩
    · simp [State.setWait, State.setLinks, hwait]
    · refine Call.bind_eq_some.2 ⟨_, _, Call.get_eq_some.2 ⟨rfl, rfl⟩, ?_⟩
      refine Call.bind_eq_some.2
        ⟨(), _, Call.assert_eq_some.2 ⟨?_, rfl⟩, ?_⟩
      · simp [State.setWait, State.setLinks, hproc]
      · rw [if_pos (by simp [State.setWait, State.setLinks, hproc])]
        exact Call.modify_eq_some.2 rfl

theorem up_eq_grant (h : Holds m a) (hq : a.queue s = w :: q) :
    up s m = some ((), released m w) := by
  have hw : w ∈ a.queue s := by
    rw [hq]
    exact List.mem_cons_self
  obtain ⟨hproc, hwait⟩ := h.queued s w hw
  refine Call.bind_eq_some.2 ⟨some w, m, ?_, ?_⟩
  · rw [waitQueueFirst_spec h, hq]
    rfl
  · refine Call.bind_eq_some.2 ⟨m, m, Call.get_eq_some.2 ⟨rfl, rfl⟩, ?_⟩
    refine Call.bind_eq_some.2
      ⟨w, m, Call.ofOption_eq_some.2 ⟨by rw [hwait], rfl⟩, ?_⟩
    exact Call.bind_eq_some.2 ⟨(), m,
      Call.assert_eq_some.2 ⟨by rw [hproc], rfl⟩, wakeupWait_eq h hw⟩

theorem Holds.put (h : Holds m a) (hq : a.queue s = []) :
    Holds (m.setValue s (m.value s + 1)) (a.put s) := by
  refine ⟨fun r => ?_, h.ring, h.queued, h.granted, h.tight.put hq⟩
  simp only [State.setValue, Function.update_apply, Sema.put_value]
  split
  case isTrue => rw [h.value]; push_cast; rfl
  case isFalse => exact h.value r

/-- The links `list_del_init` of a waiter leaves, outside its ring. -/
theorem Holds.del_ring (h : Holds m a) (hq : a.queue s = w :: q) (r : σ) :
    IsRing (listDelInit m.links (.waitLink w)) (.waitHead r)
      (((a.grant s w q).queue r).map .waitLink) := by
  have hring := h.ring s
  have hdisj := h.disjoint (r := r) (s := s)
  rw [hq] at hring hdisj
  have hcut : IsRing m.links (.waitHead s)
      ([] ++ .waitLink w :: q.map .waitLink) := hring
  rw [Sema.grant_queue]
  split
  case isTrue hrs =>
      rw [hrs]
      exact listDelInit_ring hcut
  case isFalse hrs =>
      exact listDelInit_ring_frame hcut (h.ring r) (hdisj hrs)

theorem Holds.grant (h : Holds m a) (hq : a.queue s = w :: q) :
    Holds (released m w) (a.grant s w q) := by
  have htight := h.tight.grant hq
  have hw : w ∈ a.queue s := by
    rw [hq]
    exact List.mem_cons_self
  have hring := h.ring s
  rw [hq] at hring
  refine ⟨h.value, h.del_ring hq, fun r t ht => ?_, fun r t ht => ?_, htight⟩
  · have htw : t ≠ w := by
      intro heq
      have hungranted := htight.ungranted r t ht
      rw [Sema.grant_granted, if_pos heq] at hungranted
      cases hungranted
    have hold : t ∈ a.queue r := by
      rw [Sema.grant_queue] at ht
      split at ht
      case isTrue hrs => rw [hrs, hq]; exact List.mem_cons_of_mem w ht
      case isFalse => exact ht
    simpa [released, State.setProc, State.setWait, State.setLinks, htw]
      using h.queued r t hold
  · rw [Sema.grant_granted] at ht
    by_cases htw : t = w
    · subst htw
      simp [released, State.setProc, State.setWait, State.setLinks,
        listDelInit]
    · rw [if_neg htw] at ht
      obtain ⟨hnext, hflags, hstate⟩ := h.granted r t ht
      have hprev : m.links.prev (.waitLink w) = .waitHead s := by
        have hcut : IsRing m.links (.waitHead s)
            ([] ++ .waitLink w :: q.map .waitLink) := hring
        exact hcut.prev_after
      refine ⟨?_, ?_, ?_⟩
      · simp [released, State.setProc, State.setWait, State.setLinks,
          listDelInit, listDel, listPrev, listNext, hprev, htw, hnext]
      · simpa [released, State.setProc, State.setWait, State.setLinks, htw]
          using hflags
      · simpa [released, State.setProc, State.setWait, State.setLinks, htw]
          using hstate

-- ============================================================== down

theorem downEnter_eq_take (t : ν) (hv : 0 < m.value s) :
    downEnter t s m = some (true, m.setValue s (m.value s - 1)) := by
  refine Call.bind_eq_some.2 ⟨m, m, Call.get_eq_some.2 ⟨rfl, rfl⟩, ?_⟩
  rw [if_pos hv]
  exact Call.bind_eq_some.2 ⟨(), _, Call.modify_eq_some.2 rfl,
    Call.pure_eq_some.2 ⟨rfl, rfl⟩⟩

theorem tryDown_eq_take (hv : 0 < m.value s) :
    tryDown s m = some (true, m.setValue s (m.value s - 1)) := by
  refine Call.bind_eq_some.2 ⟨m, m, Call.get_eq_some.2 ⟨rfl, rfl⟩, ?_⟩
  rw [if_pos hv]
  exact Call.bind_eq_some.2 ⟨(), _, Call.modify_eq_some.2 rfl,
    Call.pure_eq_some.2 ⟨rfl, rfl⟩⟩

theorem tryDown_eq_refuse (hv : ¬ 0 < m.value s) :
    tryDown s m = some (false, m) := by
  refine Call.bind_eq_some.2 ⟨m, m, Call.get_eq_some.2 ⟨rfl, rfl⟩, ?_⟩
  rw [if_neg hv]
  exact Call.pure_eq_some.2 ⟨rfl, rfl⟩

/-- The memory after `__down` put the thread to sleep. -/
def blocked (m : State σ ν) (t : ν) (s : σ) : State σ ν :=
  ((m.setWait t ⟨some t, wtInterrupted, some s⟩).setProc t
    ⟨.sleeping, wtKsem⟩).setLinks
      (listAddBefore (listInit m.links (.waitLink t)) (.waitHead s)
        (.waitLink t))

theorem downEnter_eq_block (hv : ¬ 0 < m.value s) :
    downEnter t s m = some (false, blocked m t s) := by
  refine Call.bind_eq_some.2 ⟨m, m, Call.get_eq_some.2 ⟨rfl, rfl⟩, ?_⟩
  rw [if_neg hv]
  refine Call.bind_eq_some.2 ⟨(), _, ?_, Call.pure_eq_some.2 ⟨rfl, rfl⟩⟩
  refine Call.bind_eq_some.2 ⟨(), _, Call.modify_eq_some.2 rfl, ?_⟩
  refine Call.bind_eq_some.2 ⟨(), _, Call.modify_eq_some.2 rfl, ?_⟩
  refine Call.bind_eq_some.2 ⟨_, _, Call.get_eq_some.2 ⟨rfl, rfl⟩, ?_⟩
  refine Call.bind_eq_some.2 ⟨(), _, Call.assert_eq_some.2 ⟨?_, rfl⟩, ?_⟩
  · simp [State.setWait, State.setProc, State.setLinks, listEmpty, listNext]
  · refine Call.modify_eq_some.2 ?_
    simp [blocked, State.setWait, State.setProc, State.setLinks]

theorem Holds.take (h : Holds m a) (hv : 0 < m.value s) :
    Holds (m.setValue s (m.value s - 1)) (a.take s) := by
  refine ⟨fun r => ?_, h.ring, h.queued, h.granted, h.tight.take⟩
  rw [h.value] at hv
  simp only [State.setValue, Function.update_apply, Sema.take_value]
  split
  case isTrue => rw [h.value]; omega
  case isFalse => exact h.value r

theorem Holds.block (h : Holds m a) (hidle : a.Idle t)
    (hv : ¬ 0 < m.value s) : Holds (blocked m t s) (a.block t s) := by
  rw [h.value] at hv
  have htight := h.tight.block (s := s) hidle (by omega)
  have hfresh : ∀ r, (.waitLink t : Entry σ ν)
      ∉ .waitHead r :: (a.queue r).map .waitLink :=
    fun r hmem => hidle.2 r (waitLink_mem.1 hmem)
  have hinit : ∀ r, IsRing (listInit m.links (.waitLink t)) (.waitHead r)
      ((a.queue r).map .waitLink) :=
    fun r => listInit_ring_of_notMem (h.ring r) (hfresh r)
  refine ⟨h.value, fun r => ?_, fun r x hx => ?_, fun r x hx => ?_, htight⟩
  · rw [Sema.block_queue]
    split
    case isTrue hrs =>
        have hcut : IsRing (listInit m.links (.waitLink t)) (.waitHead s)
            ((a.queue s).map .waitLink ++ []) := by
          rw [List.append_nil]
          exact hinit s
        have hadd := listAddBefore_ring hcut (by
          rw [List.append_nil]
          exact hfresh s)
        rw [hrs, List.map_append]
        exact hadd
    case isFalse hrs =>
        have hcut : IsRing (listInit m.links (.waitLink t)) (.waitHead s)
            ((a.queue s).map .waitLink ++ []) := by
          rw [List.append_nil]
          exact hinit s
        refine listAddBefore_ring_frame hcut (hinit r) (hfresh r) ?_
        rw [List.append_nil]
        exact h.disjoint hrs
  · rw [Sema.block_queue] at hx
    by_cases hxt : x = t
    · have hrs : r = s := by
        by_contra hne
        rw [if_neg hne, hxt] at hx
        exact hidle.2 r hx
      rw [hxt, hrs]
      simp [blocked, State.setWait, State.setProc, State.setLinks]
    · have hold : x ∈ a.queue r := by
        split at hx
        case isTrue hrs =>
            rw [List.mem_append, List.mem_singleton, ← hrs] at hx
            exact hx.resolve_right hxt
        case isFalse => exact hx
      simpa [blocked, State.setWait, State.setProc, State.setLinks, hxt]
        using h.queued r x hold
  · have hxt : x ≠ t := by
      intro heq
      rw [Sema.block_granted, heq, hidle.1] at hx
      cases hx
    obtain ⟨hnext, hflags, hstate⟩ := h.granted r x hx
    have hcut : IsRing m.links (.waitHead s)
        ((a.queue s).map .waitLink ++ []) := by
      rw [List.append_nil]
      exact h.ring s
    have hprev := hcut.prev_after
    rw [after_nil] at hprev
    have hout : (.waitLink x : Entry σ ν)
        ≠ before (.waitHead s) ((a.queue s).map .waitLink) := by
      intro heq
      have hmem := before_mem (.waitHead s)
        ((a.queue s).map (.waitLink : ν → Entry σ ν))
      rw [← heq, waitLink_mem] at hmem
      have hungranted := h.tight.ungranted s x hmem
      rw [show a.granted x = some r from hx] at hungranted
      cases hungranted
    refine ⟨?_, ?_, ?_⟩
    · simp [blocked, State.setWait, State.setProc, State.setLinks,
        listAddBefore, listPrev, hprev, hout, hxt, hnext]
    · simpa [blocked, State.setWait, State.setProc, State.setLinks, hxt]
        using hflags
    · simpa [blocked, State.setWait, State.setProc, State.setLinks, hxt]
        using hstate

-- ========================================================== resuming

theorem downLeave_eq (h : Holds m a) (ht : a.granted t = some s) :
    downLeave t s m = some ((), m) := by
  obtain ⟨hnext, hflags, -⟩ := h.granted s t ht
  have hempty : listEmpty m.links (.waitLink t) = true := by
    rw [listEmpty, beq_iff_eq]
    exact hnext
  refine Call.bind_eq_some.2 ⟨0, m, ?_, Call.assert_eq_some.2 ⟨rfl, rfl⟩⟩
  refine Call.bind_eq_some.2 ⟨(), m, ?_, ?_⟩
  · refine Call.bind_eq_some.2 ⟨false, m, ?_, Call.pure_eq_some.2 ⟨rfl, rfl⟩⟩
    refine Call.bind_eq_some.2 ⟨m, m, Call.get_eq_some.2 ⟨rfl, rfl⟩, ?_⟩
    exact Call.pure_eq_some.2 ⟨by rw [hempty]; rfl, rfl⟩
  · refine Call.bind_eq_some.2 ⟨m, m, Call.get_eq_some.2 ⟨rfl, rfl⟩, ?_⟩
    rw [if_neg (not_not.2 hflags)]
    exact Call.pure_eq_some.2 ⟨rfl, rfl⟩

theorem Holds.resume (h : Holds m a) (t : ν) : Holds m (a.resume t) := by
  refine ⟨h.value, h.ring, h.queued, fun s u hu => ?_, h.tight.resume⟩
  rw [Sema.resume_granted] at hu
  split at hu
  case isTrue => cases hu
  case isFalse => exact h.granted s u hu

end Ucore.Sync
