/-
What the scheduler finds in a process that never called lab6_set_priority.

`alloc_proc` of lab6 leaves the fields of the scheduler as `kmalloc` returned
them: the priority, the stride and the time slice of a process are what the
memory held, until the process sets its priority. To say that a value was set
since the allocation is to say that it does not depend on what the memory
held: `Initialised` compares a run with the runs over other contents.

The start is followed side by side over two contents (`Twin`). No call of
sched_init and proc_init looks at the fields before init is put into the empty
pool, so both starts go the same way, and the process they leave in the run
queue has the fields its memory had.
-/
import Ucore.Sched.Proofs.RunQueue

namespace Ucore.Schedule

open Call Process SkewHeap

variable {ν : Type} [DecidableEq ν] {A : Memory ν} {w w' : World A}
  {k k' t : Kernel A} {s : State A} {p proc : ν} {fuel bootstack : Nat}
  {slice : Int} {c : ν → Sched.Proc} {σ τ : Sched.Sched ν}

-- ====================================================== the property

/-- The kernel with other values in the fields of the scheduler. -/
def Kernel.holding (k : Kernel A) (c : ν → Sched.Proc) : Kernel A :=
  { k with sched := { k.sched with procs := c } }

/-- sched_init and proc_init, from variables that have their initial values,
lead to `w`. -/
structure Boots (fuel bootstack : Nat) (slice : Int) (k : Kernel A)
    (w : World A) : Prop where
  nrProcess : k.tables.nrProcess = 0
  lastPid : k.tables.lastPid = maxPid
  nextSafe : k.tables.nextSafe = maxPid
  idleproc : k.tables.idleproc = none
  initproc : k.tables.initproc = none
  init : ∃ k', schedInit slice k = some ((), k')
    ∧ procInit fuel bootstack k' = some ((), w.kernel)
  waits : ∀ p, w.waits p = none
  leaving : w.leaving = false

theorem Boots.start (h : Boots fuel bootstack slice k w) : Start w := by
  obtain ⟨k', hsched, hproc⟩ := h.init
  exact ⟨⟨k, k', (), fuel, bootstack, slice, h.nrProcess, h.lastPid, h.nextSafe,
    h.idleproc, h.initproc, hsched, hproc⟩, h.waits, h.leaving⟩

/-- A process is in the stride run queue. -/
def InQueue (w : World A) (p : ν) : Prop :=
  ∃ t, Root w.kernel.sched.pool w.kernel.sched.rq.lab6RunPool t
    ∧ p ∈ nodes t

/-- After the calls `ls` every process in the run queue has a priority, and a
stride and a time slice that are the same whatever the memory held at the
start. -/
structure Initialised (fuel bootstack : Nat) (slice : Int) (k : Kernel A)
    (ls : List (Label ν)) (w : World A) : Prop where
  priority : ∀ p, InQueue w p →
    1 ≤ (w.kernel.sched.procs p).lab6Priority.toNat
  independent : ∀ p, InQueue w p → ∀ c w₀ w',
    Boots fuel bootstack slice (k.holding c) w₀ → Run Step w₀ ls w' →
      (w'.kernel.sched.procs p).lab6Stride
          = (w.kernel.sched.procs p).lab6Stride
        ∧ (w'.kernel.sched.procs p).timeSlice
          = (w.kernel.sched.procs p).timeSlice

-- ====================================================== side by side

/-- Two kernels that differ in the scheduler only, which are related. -/
structure Twin (Q : Sched.Sched ν → Sched.Sched ν → Prop)
    (k t : Kernel A) : Prop where
  tables : t.tables = k.tables
  current : t.current = k.current
  sched : Q k.sched t.sched

/-- The pool is empty, and the fields are those of `c`. -/
structure Untouched (c : ν → Sched.Proc) (σ τ : Sched.Sched ν) : Prop where
  empty : σ.rq.lab6RunPool = none
  pool : τ.pool = σ.pool
  rq : τ.rq = σ.rq
  priority : ∀ q, (τ.procs q).lab6Priority = (c q).lab6Priority
  stride : ∀ q, (τ.procs q).lab6Stride = (c q).lab6Stride
  slice : ∀ q, (τ.procs q).timeSlice = (c q).timeSlice

/-- `p` is in the pool, with the fields of `c`; the time slice was cut down
when there was none, or one too long. -/
structure Enqueued (c : ν → Sched.Proc) (p : ν) (σ τ : Sched.Sched ν) :
    Prop where
  queued : σ.rq.lab6RunPool = some p
  root : τ.rq.lab6RunPool = some p
  priority : (τ.procs p).lab6Priority = (c p).lab6Priority
  stride : (τ.procs p).lab6Stride = (c p).lab6Stride
  slice : (τ.procs p).timeSlice
    = if (c p).timeSlice = 0 ∨ τ.rq.maxTimeSlice < (c p).timeSlice then
        τ.rq.maxTimeSlice
      else (c p).timeSlice

/-- The one or the other. -/
def AtMostOne (c : ν → Sched.Proc) (σ τ : Sched.Sched ν) : Prop :=
  Untouched c σ τ ∨ ∃ p, Enqueued c p σ τ

theorem Twin.mono {Q Q' : Sched.Sched ν → Sched.Sched ν → Prop}
    (h : Twin Q k t) (hQ : Q k.sched t.sched → Q' k.sched t.sched) :
    Twin Q' k t :=
  ⟨h.tables, h.current, hQ h.sched⟩

section Twin

variable {Q : Sched.Sched ν → Sched.Sched ν → Prop} {α : Type}

theorem Twin.tables_sim {m : ProcM A α} (h : Twin Q k t) :
    Sim (onTables m) (onTables m) k t fun _ k' t' => Twin Q k' t' := by
  intro a k' hcall
  obtain ⟨s, hm, rfl⟩ := onTables_eq_some.1 hcall
  refine ⟨{ t with tables := s }, onTables_eq_some.2 ⟨s, ?_, rfl⟩,
    rfl, h.current, h.sched⟩
  rw [h.tables]
  exact hm

/-- The tables are read alike. -/
theorem Twin.get_sim (h : Twin Q k t) :
    Sim (onTables get) (onTables get) k t fun s k' t' =>
      Twin Q k' t' ∧ s = k'.tables := by
  intro a k' hcall
  obtain ⟨s, hm, rfl⟩ := onTables_eq_some.1 hcall
  obtain ⟨rfl, rfl⟩ := get_eq_some.1 hm
  refine ⟨t, onTables_eq_some.2 ⟨t.tables, ?_, rfl⟩, h, rfl⟩
  rw [h.tables]
  exact get_eq_some.2 ⟨rfl, rfl⟩

theorem Twin.setNeedResched_sim {b : Bool} (h : Twin (Untouched c) k t) :
    Sim (setNeedResched p b) (setNeedResched p b) k t fun _ k' t' =>
      Twin (Untouched c) k' t' := by
  intro u k' hcall
  rw [setNeedResched, modify_eq_some] at hcall
  rw [hcall]
  have hkeep : ∀ {β : Type} (f : Sched.Proc → β),
      (∀ q, f { q with needResched := b } = f q) →
      ∀ q, f ((t.sched.setProc p
        { t.sched.procs p with needResched := b }).procs q)
          = f (t.sched.procs q) := by
    intro β f hf q
    simp only [Sched.Sched.setProc, Function.update_apply]
    split
    case isTrue heq => rw [hf, heq]
    case isFalse => rfl
  refine ⟨_, modify_eq_some.2 rfl, h.tables, h.current, h.sched.empty,
    h.sched.pool, h.sched.rq, fun q => ?_, fun q => ?_, fun q => ?_⟩
  · rw [hkeep Sched.Proc.lab6Priority fun _ => rfl]
    exact h.sched.priority q
  · rw [hkeep Sched.Proc.lab6Stride fun _ => rfl]
    exact h.sched.stride q
  · rw [hkeep Sched.Proc.timeSlice fun _ => rfl]
    exact h.sched.slice q

end Twin

-- ================================================= the first process

/-- Putting a process into an empty pool compares nothing. -/
theorem skewHeapInsert_none {comp : ν → ν → Int} {m : Pool ν} :
    skewHeapInsert comp fuel none p m
      = if fuel = 0 then none else some (some p, skewHeapInit m p) := by
  cases fuel with
  | zero => rfl
  | succ fuel => rfl

theorem strideEnqueue_twin {σ' : Sched.Sched ν} (h : Untouched c σ τ)
    (hcall : Sched.strideEnqueue fuel p σ = some σ') :
    ∃ τ', Sched.strideEnqueue fuel p τ = some τ' ∧ Enqueued c p σ' τ' := by
  have hempty : τ.rq.lab6RunPool = none := by
    rw [h.rq]
    exact h.empty
  rw [Sched.strideEnqueue, h.empty, skewHeapInsert_none] at hcall
  by_cases hfuel : fuel = 0
  · rw [if_pos hfuel] at hcall
    cases hcall
  · rw [if_neg hfuel] at hcall
    cases hcall
    refine ⟨_, by rw [Sched.strideEnqueue, hempty, skewHeapInsert_none,
      if_neg hfuel], rfl, rfl, ?_, ?_, ?_⟩
    · simp only [Function.update_self]
      exact h.priority p
    · simp only [Function.update_self]
      exact h.stride p
    · simp only [Function.update_self, h.slice p]

theorem Twin.enqueue_sim (h : Twin (Untouched c) k t) :
    Sim (schedClassEnqueue fuel p) (schedClassEnqueue fuel p) k t
      fun _ k' t' => Twin (AtMostOne c) k' t' := by
  rw [schedClassEnqueue]
  refine h.get_sim.bind fun s k₁ t₁ hR => ?_
  obtain ⟨h₁, -⟩ := hR
  refine .ite (fun _ => ?_) (fun _ => .pure (h₁.mono .inl))
  intro u k' hcall
  obtain ⟨σ', hσ, rfl⟩ := onSched_eq_some.1 hcall
  obtain ⟨τ', hτ, hq⟩ := strideEnqueue_twin h₁.sched hσ
  exact ⟨{ t₁ with sched := τ' }, onSched_eq_some.2 ⟨τ', hτ, rfl⟩,
    h₁.tables, h₁.current, .inr ⟨p, hq⟩⟩

theorem Twin.wakeup_sim (h : Twin (Untouched c) k t) :
    Sim (wakeupProc fuel p) (wakeupProc fuel p) k t fun _ k' t' =>
      Twin (AtMostOne c) k' t' := by
  rw [wakeupProc]
  refine h.get_sim.bind fun s k₁ t₁ hR => ?_
  obtain ⟨h₁, -⟩ := hR
  refine Sim.bind (R := fun _ k' t' => Twin (Untouched c) k' t')
    (.assert fun _ => h₁) fun _ k₂ t₂ h₂ => ?_
  refine .ite (fun _ => ?_) (fun _ => .pure (h₂.mono .inl))
  refine h₂.tables_sim.bind fun _ k₃ t₃ h₃ => ?_
  refine .get ?_
  rw [h₃.current]
  exact .ite (fun _ => h₃.enqueue_sim) (fun _ => .pure (h₃.mono .inl))

-- =========================================================== do_fork

theorem Twin.allocProc_sim (h : Twin (Untouched c) k t) :
    Sim allocProc allocProc k t fun _ k' t' => Twin (Untouched c) k' t' := by
  rw [allocProc]
  refine h.tables_sim.bind fun o k₁ t₁ h₁ => ?_
  cases o with
  | none => exact .pure h₁
  | some p =>
      refine h₁.setNeedResched_sim.bind fun _ k₂ t₂ h₂ => ?_
      exact .pure h₂

theorem Twin.doForkWith_sim {flags : BitVec 32} {current : ν}
    (h : Twin (Untouched c) k t) :
    Sim (doForkWith fuel current flags proc)
      (doForkWith fuel current flags proc) k t fun _ k' t' =>
        Twin (AtMostOne c) k' t' := by
  rw [doForkWith]
  refine h.tables_sim.bind fun _ k₁ t₁ h₁ => ?_
  refine h₁.tables_sim.bind fun s k₂ t₂ h₂ => ?_
  refine Sim.bind (R := fun _ k' t' => Twin (Untouched c) k' t')
    (.assert fun _ => h₂) fun _ k₃ t₃ h₃ => ?_
  refine h₃.tables_sim.bind fun _ k₄ t₄ h₄ => ?_
  cases (A.setupKstack s.mem).1 with
  | none =>
      refine h₄.tables_sim.bind fun _ k₅ t₅ h₅ => ?_
      exact .pure (h₅.mono .inl)
  | some kstack =>
      refine h₄.tables_sim.bind fun _ k₅ t₅ h₅ => ?_
      refine h₅.tables_sim.bind fun s k₆ t₆ h₆ => ?_
      refine Sim.bind (R := fun _ k' t' => Twin (Untouched c) k' t')
        (.ofOption fun _ _ => h₆) fun r k₇ t₇ h₇ => ?_
      refine h₇.tables_sim.bind fun _ k₈ t₈ h₈ => ?_
      obtain ⟨⟨copied, mm⟩, mem⟩ := r
      cases copied with
      | false =>
          refine h₈.tables_sim.bind fun _ k₉ t₉ h₉ => ?_
          exact .pure (h₉.mono .inl)
      | true =>
          refine h₈.tables_sim.bind fun _ k₉ t₉ h₉ => ?_
          refine h₉.tables_sim.bind fun pid k₁₀ t₁₀ h₁₀ => ?_
          refine h₁₀.tables_sim.bind fun _ k₁₁ t₁₁ h₁₁ => ?_
          refine h₁₁.tables_sim.bind fun _ k₁₂ t₁₂ h₁₂ => ?_
          refine h₁₂.tables_sim.bind fun _ k₁₃ t₁₃ h₁₃ => ?_
          refine h₁₃.wakeup_sim.bind fun _ k₁₄ t₁₄ h₁₄ => ?_
          exact .pure h₁₄

theorem Twin.doFork_sim {flags : BitVec 32} {current : ν}
    (h : Twin (Untouched c) k t) :
    Sim (doFork fuel current flags) (doFork fuel current flags) k t
      fun _ k' t' => Twin (AtMostOne c) k' t' := by
  rw [doFork]
  refine h.tables_sim.bind fun s k₁ t₁ h₁ => ?_
  refine .ite (fun _ => .pure (h₁.mono .inl)) (fun _ => ?_)
  refine h₁.allocProc_sim.bind fun first k₂ t₂ h₂ => ?_
  refine Sim.bind (R := fun _ k' t' => Twin (Untouched c) k' t')
    (.ofOption fun _ _ => h₂) fun _ k₃ t₃ h₃ => ?_
  refine h₃.allocProc_sim.bind fun second k₄ t₄ h₄ => ?_
  refine Sim.bind (R := fun _ k' t' => Twin (Untouched c) k' t')
    (.ofOption fun _ _ => h₄) fun proc k₅ t₅ h₅ => ?_
  exact h₅.doForkWith_sim

-- ========================================================= proc_init

theorem Twin.procInit_sim (h : Twin (Untouched c) k t) :
    Sim (procInit fuel bootstack) (procInit fuel bootstack) k t
      fun _ k' t' => Twin (AtMostOne c) k' t' := by
  rw [procInit]
  refine h.tables_sim.bind fun _ k₁ t₁ h₁ => ?_
  refine h₁.tables_sim.bind fun _ k₂ t₂ h₂ => ?_
  refine h₂.allocProc_sim.bind fun proc k₃ t₃ h₃ => ?_
  refine Sim.bind (R := fun _ k' t' => Twin (Untouched c) k' t')
    (.ofOption fun _ _ => h₃) fun idle k₄ t₄ h₄ => ?_
  refine h₄.tables_sim.bind fun _ k₅ t₅ h₅ => ?_
  refine h₅.tables_sim.bind fun _ k₆ t₆ h₆ => ?_
  refine h₆.setNeedResched_sim.bind fun _ k₇ t₇ h₇ => ?_
  refine h₇.tables_sim.bind fun _ k₈ t₈ h₈ => ?_
  refine Sim.bind (R := fun _ k' t' => Twin (Untouched c) k' t') ?_
    fun _ k₉ t₉ h₉ => ?_
  · intro u k' hcall
    rw [modify_eq_some] at hcall
    rw [hcall]
    exact ⟨_, modify_eq_some.2 rfl, h₈.tables, rfl, h₈.sched⟩
  refine h₉.doFork_sim.bind fun pid k₁₀ t₁₀ h₁₀ => ?_
  refine Sim.bind (R := fun _ k' t' => Twin (AtMostOne c) k' t')
    (.assert fun _ => h₁₀) fun _ k₁₁ t₁₁ h₁₁ => ?_
  refine h₁₁.tables_sim.bind fun _ k₁₂ t₁₂ h₁₂ => ?_
  refine h₁₂.tables_sim.bind fun _ k₁₃ t₁₃ h₁₃ => ?_
  refine h₁₃.tables_sim.bind fun _ k₁₄ t₁₄ h₁₄ => ?_
  refine Sim.bind (R := fun _ k' t' => Twin (AtMostOne c) k' t')
    (.ofOption fun _ _ => h₁₄) fun _ k₁₅ t₁₅ h₁₅ => ?_
  exact .assert fun _ => h₁₅

/-- `sched_init` empties the pool. -/
theorem schedInit_twin (hcall : schedInit slice k = some ((), k'))
    (c : ν → Sched.Proc) :
    ∃ t', schedInit slice (k.holding c) = some ((), t')
      ∧ Twin (Untouched c) k' t' := by
  obtain ⟨σ, hσ, rfl⟩ := onSched_eq_some.1 hcall
  cases hσ
  exact ⟨_, onSched_eq_some.2 ⟨_, rfl, rfl⟩, rfl, rfl, rfl, rfl, rfl,
    fun _ => rfl, fun _ => rfl, fun _ => rfl⟩

-- ========================================================= the start

/-- After the start some process is in the pool. -/
theorem Start.pool (h : Start w) : w.kernel.sched.rq.lab6RunPool ≠ none := by
  obtain ⟨R, init, hsound, hcur, hrun⟩ := h.booted
  obtain ⟨t, hroot, -, hmem⟩ := hsound.consistent
  have hprocs := hsound.tables.init_procs
  have hinit : init ∈ nodes t := by
    apply (hmem init).2
    refine ⟨hsound.tables.listed.2 hprocs, hrun, fun hidle => ?_, fun heq => ?_⟩
    · rw [hsound.idleproc, Option.some.injEq] at hidle
      rw [← hidle] at hprocs
      exact hsound.tables.tables.idle_notMem hprocs
    · rw [heq, ← hcur] at hprocs
      exact hsound.tables.tables.idle_notMem hprocs
  intro hnone
  cases t with
  | nil => cases hinit
  | node x l r =>
      have hshape := hroot.shape.1
      rw [hnone] at hshape
      cases hshape

/-- Whatever the memory holds, the start goes the same way, and leaves one and
the same process in the pool with the fields that its memory held. -/
theorem Boots.over (h : Boots fuel bootstack slice k w)
    (c : ν → Sched.Proc) : ∃ p w', Boots fuel bootstack slice (k.holding c) w'
      ∧ Enqueued c p w.kernel.sched w'.kernel.sched := by
  obtain ⟨k', hsched, hproc⟩ := h.init
  obtain ⟨t', hsched', htwin⟩ := schedInit_twin hsched c
  obtain ⟨t'', hproc', htwin'⟩ := htwin.procInit_sim () _ hproc
  have hboots : Boots fuel bootstack slice (k.holding c)
      ⟨t'', w.waits, w.leaving⟩ :=
    ⟨h.nrProcess, h.lastPid, h.nextSafe, h.idleproc, h.initproc,
      ⟨t', hsched', hproc'⟩, h.waits, h.leaving⟩
  rcases htwin'.sched with huntouched | ⟨p, hq⟩
  · exact absurd huntouched.empty h.start.pool
  · exact ⟨p, _, hboots, hq⟩

/-- The root of the pool is in the queue. -/
theorem inQueue_root (h : Start w)
    (hroot : w.kernel.sched.rq.lab6RunPool = some p) : InQueue w p := by
  obtain ⟨R, init, hsound, -⟩ := h.booted
  obtain ⟨t, ht, -⟩ := hsound.consistent
  refine ⟨t, ht, ?_⟩
  have hshape := ht.shape
  rw [hroot] at hshape
  exact hshape.mem

/-- No start initialises the fields of the scheduler. The process it puts into
the run queue has the priority, the stride and, when it is in range, the time
slice that its memory held; the first pick divides by 0 exactly when the
memory held 0. -/
theorem sched_fields_unset (h : Boots fuel bootstack slice k w) :
    (¬ ∀ ls w', Run Step w ls w' →
        Initialised fuel bootstack slice k ls w')
      ∧ ∃ p, InQueue w p ∧ ∀ c : ν → Sched.Proc, ∃ w',
        Boots fuel bootstack slice (k.holding c) w' ∧ InQueue w' p
          ∧ (w'.kernel.sched.procs p).lab6Priority = (c p).lab6Priority
          ∧ (w'.kernel.sched.procs p).lab6Stride = (c p).lab6Stride
          ∧ (0 < (c p).timeSlice →
            (c p).timeSlice ≤ w'.kernel.sched.rq.maxTimeSlice →
            (w'.kernel.sched.procs p).timeSlice = (c p).timeSlice)
          ∧ (Sched.stridePickNext w'.kernel.sched = none
            ↔ (c p).lab6Priority = 0) := by
  obtain ⟨p, _, -, hp⟩ := h.over k.sched.procs
  have hqueued := inQueue_root h.start hp.queued
  have hover : ∀ c, ∃ w', Boots fuel bootstack slice (k.holding c) w'
      ∧ Enqueued c p w.kernel.sched w'.kernel.sched := by
    intro c
    obtain ⟨p', w', hboots, hp'⟩ := h.over c
    have hsame : p' = p :=
      Option.some.inj (hp'.queued.symm.trans hp.queued)
    rw [hsame] at hp'
    exact ⟨w', hboots, hp'⟩
  refine ⟨fun hall => ?_, p, hqueued, fun c => ?_⟩
  · -- another stride in the memory is another stride in the run queue
    obtain ⟨w', hboots, hp'⟩ := hover fun _ =>
      ⟨false, false, 0, (w.kernel.sched.procs p).lab6Stride + 1, 0⟩
    have hsame := ((hall [] w (.nil w)).independent p hqueued _ w' w' hboots
      (.nil w')).1
    rw [hp'.stride] at hsame
    simp only at hsame
    have hne : ∀ x : BitVec 32, x + 1 ≠ x := by
      intro x
      bv_omega
    exact hne _ hsame
  · obtain ⟨w', hboots, hp'⟩ := hover c
    refine ⟨w', hboots, inQueue_root hboots.start hp'.root, hp'.priority,
      hp'.stride, fun hpos hle => ?_, ?_⟩
    · rw [hp'.slice, if_neg]
      omega
    · rw [Sched.stridePickNext, hp'.root]
      simp only [hp'.priority]
      constructor
      · intro hpick
        by_contra hne
        rw [if_neg hne] at hpick
        cases hpick
      · intro hzero
        rw [if_pos hzero]

theorem bootedWorld_boots : Boots 4 0 5 bootKernel bootedWorld where
  nrProcess := rfl
  lastPid := rfl
  nextSafe := rfl
  idleproc := rfl
  initproc := rfl
  init := ⟨kernelAfter (schedInit 5) bootKernel,
    kernelAfter_eq (by decide +kernel), kernelAfter_eq (by decide +kernel)⟩
  waits _ := rfl
  leaving := rfl

/-- A start with two processes, over every contents of the memory. -/
theorem sched_fields_unset_booted : ∃ p, ∀ c : Nat → Sched.Proc, ∃ w',
    Boots 4 0 5 (bootKernel.holding c) w' ∧ InQueue w' p
      ∧ (Sched.stridePickNext w'.kernel.sched = none
        ↔ (c p).lab6Priority = 0) := by
  obtain ⟨-, p, -, hall⟩ := sched_fields_unset bootedWorld_boots
  refine ⟨p, fun c => ?_⟩
  obtain ⟨w', hboots, hqueued, -, -, -, hpick⟩ := hall c
  exact ⟨w', hboots, hqueued, hpick⟩

/-- Memory full of zeros: init is put into the run queue with priority 0. -/
theorem fresh_priority_zero :
    ¬ ∀ (fuel bootstack : Nat) (slice : Int) (k : Kernel smallMemory)
      (w : World smallMemory), Boots fuel bootstack slice k w →
      ∀ ls w', Run Step w ls w' →
        Initialised fuel bootstack slice k ls w' := by
  intro hall
  obtain ⟨p, w', hboots, hp⟩ :=
    bootedWorld_boots.over fun _ => ⟨false, false, 0, 0, 0⟩
  have hpos := (hall 4 0 5 _ w' hboots [] w' (.nil w')).priority p
    (inQueue_root hboots.start hp.root)
  rw [hp.priority] at hpos
  exact absurd hpos (by decide)

end Ucore.Schedule
