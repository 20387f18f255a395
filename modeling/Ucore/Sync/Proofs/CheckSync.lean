/-
The philosophers of check_sync.c are the philosophers of the table: every
statement is a step there, and whoever is ready there can run here, or has
a timer that will expire.
-/
import Ucore.Sync.Proofs.Sem
import Ucore.Sync.Proofs.Table
import Ucore.Lib.Run

namespace Ucore.Sync.Philosophers

open Ring

variable {W W' : Philosophers} {T : Table} {m : State PhiSem Phi}
  {b : Sema PhiSem Phi} {i j t : Phi} {p q w : Pc} {r : PhiSem} {c : Caller}
  {k : TestPc} {times : Nat} {ev : Event} {evs : List Event}

-- ====================================================== the relation

/-- In `do_sleep`. -/
def Asleep (p : Pc) : Prop := p = .thinkSleep ∨ p = .eatSleep

/-- The memory holds the semaphores of the table. Who does not wait for one
is runnable, or sleeps on a timer. -/
structure Rel (W : Philosophers) (T : Table) : Prop where
  holds : Holds W.mem T.sem
  state : W.stateSema = T.state
  pc : W.pc = T.pc
  awake : ∀ i, (T.pc i).waitsOn i = none →
    (W.mem.procs i).state = .runnable
      ∨ Asleep (T.pc i) ∧ W.mem.procs i = ⟨.sleeping, wtTimer⟩

/-- A step that stores nothing in `state_sema`. -/
theorem Rel.goto (h : Rel W T) (hholds : Holds m b)
    (hothers : ∀ j, j ≠ i → (T.pc j).waitsOn j = none →
      m.procs j = W.mem.procs j)
    (hself : p.waitsOn i = none → (m.procs i).state = .runnable
      ∨ Asleep p ∧ m.procs i = ⟨.sleeping, wtTimer⟩) :
    Rel ({ W with mem := m }.goto i p) (T.goto b i p) := by
  refine ⟨hholds, h.state, ?_, fun j hj => ?_⟩
  · show Function.update W.pc i p = Function.update T.pc i p
    rw [h.pc]
  · rw [Table.goto_pc, Function.update_apply] at hj ⊢
    show ((m.procs j).state = _) ∨ _ ∧ m.procs j = _
    split at hj
    case isTrue heq =>
        rw [heq] at hj ⊢
        rw [if_pos rfl]
        exact hself hj
    case isFalse hne =>
        rw [if_neg hne, hothers j hne hj]
        exact h.awake j hj

/-- A step that changes nothing shared. -/
theorem Rel.move (h : Rel W T) (hrun : (W.mem.procs i).state = .runnable) :
    Rel (W.goto i p) (T.goto T.sem i p) :=
  h.goto h.holds (fun _ _ _ => rfl) fun _ => Or.inl hrun

theorem Rel.store (h : Rel W T) {st : PhiState}
    (hrun : (W.mem.procs i).state = .runnable) :
    Rel ((W.store t st).goto i p) (T.store t st i p) := by
  obtain ⟨hholds, -, hpc, hawake⟩ := h.move (p := p) hrun
  refine ⟨hholds, ?_, hpc, hawake⟩
  show Function.update W.stateSema t st = Function.update T.state t st
  rw [h.state]

theorem call_eq {α : Type} {f : SyncM PhiSem Phi α} {next : α → Pc} {x : α}
    (h : f W.mem = some (x, m)) :
    W.call i f next = some ({ W with mem := m }.goto i (next x)) := by
  rw [call, h]

-- ================================================ one statement each

/-- A statement of thread `i` is a step of the table. -/
def Sim (times : Nat) (W : Philosophers) (T : Table) (i : Phi) : Prop :=
  ∃ W' T', W.step times i = some W' ∧ T.Step i T' ∧ Rel W' T'

theorem Rel.up (h : Rel W T) (hinv : T.Inv) (next : Unit → Pc)
    (hrun : (W.mem.procs i).state = .runnable)
    (hi : (T.pc i).waitsOn i = none) (hvalue : T.sem.value r ≤ 1) :
    ∃ W', W.call i (Sync.up r) next = some W'
      ∧ Rel W' (T.goto (T.sem.up r) i (next ())) := by
  have hval := h.holds.value r
  cases hq : T.sem.queue r with
  | nil =>
      have hcall := up_eq_put h.holds hq (by
        rw [hval, intMax]
        omega)
      refine ⟨_, call_eq hcall, ?_⟩
      rw [Sema.up_nil hq]
      exact h.goto (h.holds.put hq) (fun _ _ _ => rfl) fun _ => Or.inl hrun
  | cons x xs =>
      have hcall := up_eq_grant h.holds hq
      have hx : x ∈ T.sem.queue r := by
        rw [hq]
        exact List.mem_cons_self
      have hprocs : ∀ j, (T.pc j).waitsOn j = none →
          (released W.mem x).procs j = W.mem.procs j := by
        intro j hj
        have hjx : j ≠ x := by
          rintro rfl
          have hwaits := (hinv.places j r).2 (Or.inl hx)
          cases hj.symm.trans hwaits
        exact Function.update_of_ne hjx _ _
      refine ⟨_, call_eq hcall, ?_⟩
      rw [Sema.up_cons hq]
      refine h.goto (h.holds.grant hq) (fun j _ hj => hprocs j hj)
        fun _ => Or.inl ?_
      rw [hprocs i hi]
      exact hrun

theorem Rel.down (h : Rel W T) (hinv : T.Inv)
    (hrun : (W.mem.procs i).state = .runnable)
    (hd : Pc.Downs i (T.pc i) r w q) {next : Bool → Pc}
    (htook : next true = q) (hblock : next false = w) :
    ∃ W' T', W.call i (downEnter i r) next = some W' ∧ T.Step i T'
      ∧ Rel W' T' := by
  have hval := h.holds.value r
  by_cases hv : 0 < T.sem.value r
  · have hv' : 0 < W.mem.value r := by omega
    refine ⟨_, _, call_eq (downEnter_eq_take i hv'), .take hd hv, ?_⟩
    rw [htook]
    exact h.goto (h.holds.take hv') (fun _ _ _ => rfl) fun _ => Or.inl hrun
  · have hv' : ¬ 0 < W.mem.value r := by omega
    refine ⟨_, _, call_eq (downEnter_eq_block hv'), .block hd (by omega), ?_⟩
    rw [hblock]
    refine h.goto (h.holds.block (hinv.idle hd.before.waitsOn) hv')
      (fun j hj _ => ?_) fun hw => ?_
    · exact Function.update_of_ne hj _ _
    · rw [hd.during.waitsOn] at hw
      cases hw

theorem Rel.resume (h : Rel W T)
    (hd : Pc.Downs i p r w q) (hw : T.pc i = w)
    (hg : T.sem.granted i = some r) {next : Unit → Pc} (hnext : next () = q) :
    ∃ W' T', W.call i (downLeave i r) next = some W' ∧ T.Step i T'
      ∧ Rel W' T' := by
  refine ⟨_, _, call_eq (downLeave_eq h.holds hg),
    .resume (hw ▸ hd) hg, ?_⟩
  rw [hnext]
  refine h.goto (h.holds.resume i) (fun _ _ _ => rfl) fun _ => Or.inl ?_
  rw [(h.holds.granted r i hg).2.2]

theorem Rel.test (h : Rel W T) (hinv : T.Inv)
    (hrun : (W.mem.procs i).state = .runnable) (hpc : T.pc i = .test c k) :
    ∃ W' T', W.phiTestSema i c k = some W' ∧ T.Step i T' ∧ Rel W' T' := by
  have hstate := h.state
  cases k with
  | self =>
      rw [phiTestSema, hstate]
      split
      case isTrue hh =>
          have hpass : T.Passes (c.arg i) .self .left := hh
          exact ⟨_, _, rfl, .pass hpc hpass, h.move hrun⟩
      case isFalse hh => exact ⟨_, _, rfl, .fail hpc hh, h.move hrun⟩
  | left =>
      rw [phiTestSema, hstate]
      split
      case isTrue hh =>
          have hpass : T.Passes (c.arg i) .left .right := hh
          exact ⟨_, _, rfl, .pass hpc hpass, h.move hrun⟩
      case isFalse hh =>
          exact ⟨_, _, rfl, .fail hpc (not_not.1 hh), h.move hrun⟩
  | right =>
      rw [phiTestSema, hstate]
      split
      case isTrue hh =>
          have hpass : T.Passes (c.arg i) .right .store := hh
          exact ⟨_, _, rfl, .pass hpc hpass, h.move hrun⟩
      case isFalse hh =>
          exact ⟨_, _, rfl, .fail hpc (not_not.1 hh), h.move hrun⟩
  | store => exact ⟨_, _, rfl, .seat hpc, h.store hrun⟩
  | up =>
      have hvalue : T.sem.value (.s (c.arg i)) ≤ 1 := hinv.value_le _
      obtain ⟨W', hcall, hrel⟩ := h.up hinv (fun _ => c.ret) hrun
        (by rw [hpc]; rfl) hvalue
      exact ⟨W', _, hcall, .serve hpc, hrel⟩

/-- `do_sleep` puts the thread to sleep on a timer. -/
theorem Rel.doSleep (h : Rel W T) (hi : (T.pc i).waitsOn i = none)
    (hinv : T.Inv) (hp : Asleep p) :
    Rel (W.doSleep i p) (T.goto T.sem i p) := by
  have hidle := hinv.idle hi
  refine h.goto (h.holds.congr_procs fun j hj => ?_) (fun j hj _ => ?_)
    fun _ => Or.inr ⟨hp, ?_⟩
  · have hji : j ≠ i := fun heq => hj (heq ▸ hidle)
    exact Function.update_of_ne hji _ _
  · exact Function.update_of_ne hj _ _
  · exact Function.update_self i _ _

/-- Whatever a runnable thread that is ready does next is a step of the
table. -/
theorem Rel.run (h : Rel W T) (hinv : T.Inv) (hready : T.Ready i)
    (hrun : (W.mem.procs i).state = .runnable) : Sim times W T i := by
  obtain ⟨hq, hg⟩ := hready
  have hpcW := congrFun h.pc i
  unfold Sim step
  cases hpc : T.pc i with
  | loop =>
      rw [hpcW, hpc]
      dsimp only
      split
      case isTrue =>
          obtain ⟨hholds, hstate, hpc', hawake⟩ := h.move (p := .think) hrun
          exact ⟨_, _, rfl, .idle (hpc ▸ .again),
            ⟨hholds, hstate, hpc', hawake⟩⟩
      case isFalse =>
          obtain ⟨hholds, hstate, hpc', hawake⟩ := h.move (p := .quit) hrun
          exact ⟨_, _, rfl, .idle (hpc ▸ .quit),
            ⟨hholds, hstate, hpc', hawake⟩⟩
  | think =>
      rw [hpcW, hpc]
      exact ⟨_, _, rfl, .idle (hpc ▸ .think),
        h.doSleep (by rw [hpc]; rfl) hinv (Or.inl rfl)⟩
  | thinkSleep =>
      rw [hpcW, hpc]
      exact ⟨_, _, rfl, .idle (hpc ▸ .thought), h.move hrun⟩
  | takeDown =>
      rw [hpcW, hpc]
      exact h.down hinv hrun (hpc ▸ .take) rfl rfl
  | takeWait =>
      rw [hpcW, hpc]
      exact h.resume .take hpc (hg .mutex (by rw [hpc]; rfl)) rfl
  | takeStore =>
      rw [hpcW, hpc]
      exact ⟨_, _, rfl, .hungry hpc, h.store hrun⟩
  | test c k =>
      rw [hpcW, hpc]
      exact h.test hinv hrun hpc
  | takeUp =>
      rw [hpcW, hpc]
      obtain ⟨W', hcall, hrel⟩ := h.up hinv (fun _ => .selfDown)
        hrun (by rw [hpc]; rfl) hinv.mutex_le
      exact ⟨W', _, hcall, .unlock (hpc ▸ .take), hrel⟩
  | selfDown =>
      rw [hpcW, hpc]
      exact h.down hinv hrun (hpc ▸ .self) rfl rfl
  | selfWait =>
      rw [hpcW, hpc]
      exact h.resume .self hpc (hg (.s i) (by rw [hpc]; rfl)) rfl
  | eat =>
      rw [hpcW, hpc]
      exact ⟨_, _, rfl, .idle (hpc ▸ .eat),
        h.doSleep (by rw [hpc]; rfl) hinv (Or.inr rfl)⟩
  | eatSleep =>
      rw [hpcW, hpc]
      exact ⟨_, _, rfl, .idle (hpc ▸ .ate), h.move hrun⟩
  | putDown =>
      rw [hpcW, hpc]
      exact h.down hinv hrun (hpc ▸ .put) rfl rfl
  | putWait =>
      rw [hpcW, hpc]
      exact h.resume .put hpc (hg .mutex (by rw [hpc]; rfl)) rfl
  | putStore =>
      rw [hpcW, hpc]
      exact ⟨_, _, rfl, .thinking hpc, h.store hrun⟩
  | putUp =>
      rw [hpcW, hpc]
      obtain ⟨W', hcall, hrel⟩ := h.up hinv (fun _ => .loop)
        hrun (by rw [hpc]; rfl) hinv.mutex_le
      exact ⟨W', _, hcall, .unlock (hpc ▸ .put), hrel⟩
  | quit => exact absurd hpc hq

-- ============================================================== runs

/-- Who is not ready is not runnable, or has quit. -/
theorem Rel.ready (h : Rel W T) (hinv : T.Inv)
    (hrun : (W.mem.procs i).state = .runnable) (hq : T.pc i ≠ .quit) :
    T.Ready i := by
  refine ⟨hq, fun r hr => ?_⟩
  refine ((hinv.places i r).1 hr).resolve_left fun hmem => ?_
  rw [(h.holds.queued r i hmem).1] at hrun
  cases hrun

/-- The timer wakes a thread up. -/
theorem wakeupProc_eq (h : m.procs i = ⟨.sleeping, wtTimer⟩) :
    wakeupProc i m = some ((), m.setProc i ⟨.runnable, 0⟩) := by
  refine Call.bind_eq_some.2 ⟨_, _, Call.get_eq_some.2 ⟨rfl, rfl⟩, ?_⟩
  refine Call.bind_eq_some.2
    ⟨(), _, Call.assert_eq_some.2 ⟨by rw [h]; rintro ⟨⟩, rfl⟩, ?_⟩
  rw [if_pos (by rw [h]; rintro ⟨⟩)]
  exact Call.modify_eq_some.2 rfl

/-- The table after an event. -/
theorem Rel.step (h : Rel W T) (hinv : T.Inv) (hstep : Step times W ev W') :
    ∃ T', T'.Inv ∧ Rel W' T' := by
  cases ev with
  | run i =>
      rw [Step, exec] at hstep
      split at hstep
      case isFalse => cases hstep
      case isTrue hrun =>
          have hq : T.pc i ≠ .quit := by
            intro hq
            rw [step, congrFun h.pc i, hq] at hstep
            cases hstep
          have hsim : Sim times W T i :=
            h.run hinv (h.ready hinv hrun hq) hrun
          obtain ⟨W'', T', hcall, hT, hrel⟩ := hsim
          rw [hcall] at hstep
          cases hstep
          exact ⟨T', hinv.step hT, hrel⟩
  | timer i =>
      rw [Step, exec] at hstep
      split at hstep
      case isFalse => cases hstep
      case isTrue hsleep =>
          obtain ⟨hpc, hproc⟩ := hsleep
          rw [wakeupProc_eq hproc] at hstep
          cases hstep
          rw [congrFun h.pc i] at hpc
          have hwaits : (T.pc i).waitsOn i = none := by
            rcases hpc with hpc | hpc <;> rw [hpc] <;> rfl
          have hidle := hinv.idle hwaits
          refine ⟨T, hinv, h.holds.congr_procs fun j hj => ?_, h.state, h.pc,
            fun j hj => ?_⟩
          · have hji : j ≠ i := fun heq => hj (heq ▸ hidle)
            exact Function.update_of_ne hji _ _
          · by_cases hji : j = i
            · refine Or.inl ?_
              have hself : (W.mem.setProc i ⟨.runnable, 0⟩).procs i
                  = ⟨.runnable, 0⟩ := Function.update_self i _ _
              rw [hji, hself]
            · have hsame : (W.mem.setProc i ⟨.runnable, 0⟩).procs j
                  = W.mem.procs j := Function.update_of_ne hji _ _
              rw [hsame]
              exact h.awake j hj

/-- Somebody can go on while anybody has not quit. -/
theorem Rel.live (h : Rel W T) (hinv : T.Inv) (hi : W.pc i ≠ .quit) :
    ∃ ev W', Step times W ev W' := by
  rw [congrFun h.pc i] at hi
  obtain ⟨j, hready⟩ := hinv.exists_ready hi
  by_cases hrun : (W.mem.procs j).state = .runnable
  · have hsim : Sim times W T j := h.run hinv hready hrun
    obtain ⟨W', -, hcall, -⟩ := hsim
    refine ⟨.run j, W', ?_⟩
    rw [Step, exec, if_pos hrun]
    exact hcall
  · cases hwaits : (T.pc j).waitsOn j with
    | some r =>
        have hproc := (h.holds.granted r j (hready.2 r hwaits)).2.2
        rw [hproc] at hrun
        exact absurd rfl hrun
    | none =>
        obtain ⟨hpc, hproc⟩ := (h.awake j hwaits).resolve_left hrun
        refine ⟨.timer j, { W with
          mem := W.mem.setProc j ⟨.runnable, 0⟩ }, ?_⟩
        have hpcW : W.pc j = .thinkSleep ∨ W.pc j = .eatSleep := by
          rw [congrFun h.pc j]
          exact hpc
        rw [Step, exec, if_pos ⟨hpcW, hproc⟩, wakeupProc_eq hproc]

/-- The table when nobody has run. -/
def laid : Table where
  sem :=
    { value := fun
        | .mutex => 1
        | .s _ => 0
      queue := fun _ => []
      granted := fun _ => none }
  state := fun _ => .thinking
  pc := fun _ => .loop

theorem laid_inv : laid.Inv where
  tight := ⟨fun _ _ => rfl, fun _ => List.nodup_nil, (fun _ _ _ h => by cases h),
    fun _ _ h => by cases h⟩
  places := fun i r => ⟨(fun h => by cases h),
    fun h => h.elim (fun h => by cases h) (fun h => by cases h)⟩
  mutex :=
    Or.inl ⟨rfl, fun i h => h.elim (fun h => by cases h) (fun h => by cases h)⟩
  fits := fun _ => rfl
  meals := by
    intro t
    have hunserved : ¬ laid.Served t := fun ⟨j, hj⟩ => by cases hj
    rw [Table.meals, decide_eq_false hunserved]
    rfl
  apart := fun _ h => by cases h
  tested := fun _ _ _ h => by cases h
  attended := fun _ h => by cases h

theorem Start.rel (h : Start W) : Rel W laid := by
  refine ⟨⟨fun s => ?_, fun s => ?_, (fun _ _ h => by cases h),
    (fun _ _ h => by cases h), laid_inv.tight⟩,
    funext h.thinking, funext h.loop, fun i _ => Or.inl (h.runnable i)⟩
  · cases s with
    | mutex => exact (semInit_fields h.mutex).1
    | s i => exact (semInit_fields (h.self i)).1
  · cases s with
    | mutex => exact (semInit_fields h.mutex).2
    | s i => exact (semInit_fields (h.self i)).2

/-- No two neighbours eat, `s[i]` holds at most one unit, and while anybody
has rounds left somebody can go on. -/
structure Sound (times : Nat) (W : Philosophers) : Prop where
  apart : ∀ i, W.stateSema i = .eating →
    W.stateSema (left i) ≠ .eating ∧ W.stateSema (right i) ≠ .eating
  unit : ∀ i, W.mem.value (.s i) ≤ 1
  live : ∀ i, W.pc i ≠ .quit → ∃ ev W', Step times W ev W'

theorem Rel.sound (h : Rel W T) (hinv : T.Inv) : Sound times W := by
  refine ⟨fun i hi => ?_, fun i => ?_, fun i hi => h.live hinv hi⟩
  · rw [h.state] at hi ⊢
    refine ⟨fun hl => ?_, hinv.apart i hi⟩
    have hr := hinv.apart (left i) hl
    rw [right_left] at hr
    exact hr hi
  · have hvalue := hinv.value_le i
    rw [h.holds.value]
    omega

/-- The philosophers are safe and never stuck, in every run of any number
of rounds. -/
theorem philosophers_sound (hstart : Start W)
    (hrun : Run (Step times) W evs W') : Sound times W' := by
  have hstep : ∀ {W W' : Philosophers} {ev : Event},
      (∃ T, T.Inv ∧ Rel W T) → Step times W ev W' → ∃ T, T.Inv ∧ Rel W' T :=
    fun ⟨_, hinv, hrel⟩ hs => hrel.step hinv hs
  obtain ⟨T, hinv, hrel⟩ :=
    Run.invariant (I := fun W => ∃ T, T.Inv ∧ Rel W T) hstep hrun
      ⟨laid, laid_inv, hstart.rel⟩
  exact hrel.sound hinv

/-- The philosophers as `check_sync` makes them. -/
def seated : Philosophers where
  mem :=
    { value := fun
        | .mutex => 1
        | .s _ => 0
      links := ⟨id, id⟩
      waits := fun _ => ⟨none, 0, none⟩
      procs := fun _ => ⟨.runnable, 0⟩ }
  stateSema := fun _ => .thinking
  iter := fun _ => 0
  pc := fun _ => .loop

theorem seated_start : Start seated := by
  have hinit : ∀ s v, seated.mem.value s = v →
      semInit s v seated.mem = some ((), seated.mem) := by
    intro s v hv
    have hlinks : listInit seated.mem.links (.waitHead s)
        = seated.mem.links := by
      simp [listInit, Links.setNext, Links.setPrev, seated]
    have hvalue : Function.update seated.mem.value s v
        = seated.mem.value := by
      rw [← hv]
      exact Function.update_eq_self s _
    simp only [semInit, waitQueueInit, Call.bind_eq_some,
      Call.modify_eq_some]
    refine ⟨(), _, rfl, ?_⟩
    simp only [State.setLinks, State.setValue, hlinks, hvalue]
  exact ⟨hinit _ _ rfl, fun i => hinit _ _ rfl, fun _ => rfl, fun _ => rfl,
    fun _ => rfl, fun _ => rfl⟩

/-- One thread thinks, and gets its forks. -/
theorem philosophers_sound_first :
    ∃ W', Run (Step 4) seated [.run 0, .run 0, .timer 0, .run 0, .run 0,
      .run 0, .run 0, .run 0, .run 0, .run 0] W' ∧ Sound 4 W' := by
  have hrun : ∃ W', Run (Step 4) seated [.run 0, .run 0, .timer 0, .run 0,
      .run 0, .run 0, .run 0, .run 0, .run 0, .run 0] W' :=
    ⟨_, .cons rfl (.cons rfl (.cons rfl (.cons rfl (.cons rfl (.cons rfl
      (.cons rfl (.cons rfl (.cons rfl (.cons rfl (.nil _))))))))))⟩
  obtain ⟨W', hrun⟩ := hrun
  exact ⟨W', hrun, philosophers_sound seated_start hrun⟩

end Ucore.Sync.Philosophers
