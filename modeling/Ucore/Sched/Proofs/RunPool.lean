/-
What the functions of lab6 do to the run pool.

`wakeup_proc` and `schedule` are the only ones that change it, and between them
no process but the current one stops being RUNNABLE. The functions of proc.c
are followed side by side with those of lab5, whose results about the tables
say which processes they wake up.
-/
import Ucore.Lib.Call
import Ucore.Process.Proofs.System
import Ucore.Sched.Schedule

namespace Ucore.Schedule

open Call Process SkewHeap

variable {ν : Type} [DecidableEq ν] {A : Memory ν} {k k' : Kernel A}
  {s s' : State A} {M : Set ν} {p q c proc current : ν} {i j : Option ν}
  {fuel heap : Nat} {u : Unit} {σ σ' : Sched.Sched ν} {t : BinaryTree ν}

-- ========================================================= the calls

@[simp] theorem onTables_eq_some {α : Type} {m : ProcM A α} {a : α} :
    onTables m k = some (a, k')
      ↔ ∃ s, m k.tables = some (a, s) ∧ k' = { k with tables := s } := by
  rw [onTables]
  cases hm : m k.tables with
  | none =>
      refine ⟨fun h => ?_, fun h => ?_⟩
      · cases h
      · obtain ⟨s, h, -⟩ := h
        cases h
  | some r =>
      refine ⟨fun h => ?_, fun h => ?_⟩
      · cases h
        exact ⟨r.2, rfl, rfl⟩
      · obtain ⟨s, h, rfl⟩ := h
        cases h
        rfl

@[simp] theorem onSched_eq_some {f : Sched.Sched ν → Option (Sched.Sched ν)} :
    onSched f k = some (u, k')
      ↔ ∃ σ, f k.sched = some σ ∧ k' = { k with sched := σ } := by
  rw [onSched]
  cases hf : f k.sched with
  | none =>
      refine ⟨fun h => ?_, fun h => ?_⟩
      · cases h
      · obtain ⟨σ, h, -⟩ := h
        cases h
  | some σ =>
      refine ⟨fun h => ?_, fun h => ?_⟩
      · cases h
        exact ⟨σ, rfl, rfl⟩
      · obtain ⟨σ', h, rfl⟩ := h
        cases h
        rfl

-- ===================================================== the run queue

theorem strideEnqueue_spec (hroot : Root σ.pool σ.rq.lab6RunPool t)
    (hp : p ∉ nodes t) (hcall : Sched.strideEnqueue fuel p σ = some σ') :
    ∃ t', Root σ'.pool σ'.rq.lab6RunPool t'
      ∧ σ'.rq.procNum = σ.rq.procNum + 1
      ∧ (nodes t').Perm (p :: nodes t) := by
  rw [Sched.strideEnqueue] at hcall
  cases hinsert : skewHeapInsert (Sched.procStrideCompF σ.procs) fuel
      σ.rq.lab6RunPool p σ.pool with
  | none =>
      rw [hinsert] at hcall
      cases hcall
  | some r =>
      rw [hinsert] at hcall
      cases hcall
      obtain ⟨hroot', -⟩ := skewHeapInsert_run hroot hp hinsert
      refine ⟨_, hroot', rfl, ?_⟩
      exact (nodes_merge _ _ _).trans List.perm_append_comm

theorem strideDequeue_spec (hroot : Root σ.pool σ.rq.lab6RunPool t)
    (hp : p ∈ nodes t) (hcall : Sched.strideDequeue fuel p σ = some σ') :
    ∃ t', Root σ'.pool σ'.rq.lab6RunPool t'
      ∧ σ'.rq.procNum = σ.rq.procNum - 1
      ∧ (nodes t).Perm (p :: nodes t') := by
  rw [Sched.strideDequeue] at hcall
  cases hremove : skewHeapRemove (Sched.procStrideCompF σ.procs) fuel
      σ.rq.lab6RunPool p σ.pool with
  | none =>
      rw [hremove] at hcall
      cases hcall
  | some r =>
      rw [hremove] at hcall
      cases hcall
      obtain ⟨hroot', -⟩ := skewHeapRemove_run hroot hp hremove
      refine ⟨_, hroot', rfl, ?_⟩
      exact (List.perm_cons_erase hp).trans
        ((nodes_erase hroot.nodup).symm.cons p)

/-- The pool is a heap of the RUNNABLE processes of `M` but idle and the
current one. -/
structure Pooled (k : Kernel A) (M : Set ν) (t : BinaryTree ν) : Prop where
  root : Root k.sched.pool k.sched.rq.lab6RunPool t
  num : k.sched.rq.procNum = BitVec.ofNat 32 (nodes t).length
  mem : ∀ p, p ∈ nodes t ↔ p ∈ M ∧ (k.tables.procs p).state = .runnable
    ∧ k.tables.idleproc ≠ some p ∧ p ≠ k.current

/-- There is such a heap. -/
def Queued (k : Kernel A) (M : Set ν) : Prop := ∃ t, Pooled k M t

/-- What the pool depends on. -/
theorem Queued.congr (h : Queued k M)
    (hpool : k'.sched.pool = k.sched.pool) (hrq : k'.sched.rq = k.sched.rq)
    (hcur : k'.current = k.current)
    (hidle : k'.tables.idleproc = k.tables.idleproc)
    (hstate : ∀ p ∈ M, p ≠ k.current →
      (k'.tables.procs p).state = (k.tables.procs p).state) :
    Queued k' M := by
  obtain ⟨t, hroot, hnum, hmem⟩ := h
  refine ⟨t, ?_, ?_, fun p => ?_⟩
  · rw [hpool, hrq]
    exact hroot
  · rw [hrq]
    exact hnum
  · rw [hmem p, hcur, hidle]
    constructor
    · intro hp
      obtain ⟨hM, hrun, hne, hpc⟩ := hp
      exact ⟨hM, (hstate p hM hpc).trans hrun, hne, hpc⟩
    · intro hp
      obtain ⟨hM, hrun, hne, hpc⟩ := hp
      exact ⟨hM, (hstate p hM hpc).symm.trans hrun, hne, hpc⟩

theorem Queued.setNeedResched {b : Bool} (h : Queued k M)
    (hcall : setNeedResched p b k = some (u, k')) : Queued k' M := by
  rw [Schedule.setNeedResched, modify_eq_some] at hcall
  rw [hcall]
  exact h.congr rfl rfl rfl rfl fun _ _ _ => rfl

/-- A process that is not RUNNABLE may join. -/
theorem Queued.insert (h : Queued k M)
    (hp : (k.tables.procs p).state ≠ .runnable) :
    Queued k (insert p M) := by
  obtain ⟨t, hroot, hnum, hmem⟩ := h
  refine ⟨t, hroot, hnum, fun q => ?_⟩
  rw [hmem q, Set.mem_insert_iff]
  constructor
  · intro hq
    exact ⟨.inr hq.1, hq.2⟩
  · intro hq
    refine ⟨hq.1.resolve_left fun heq => ?_, hq.2⟩
    rw [heq] at hq
    exact hp hq.2.1

/-- A process that is not RUNNABLE may leave. -/
theorem Queued.remove (h : Queued k M)
    (hp : (k.tables.procs p).state ≠ .runnable) : Queued k (M \ {p}) := by
  obtain ⟨t, hroot, hnum, hmem⟩ := h
  refine ⟨t, hroot, hnum, fun q => ?_⟩
  rw [hmem q]
  constructor
  · intro hq
    refine ⟨⟨hq.1, fun heq => ?_⟩, hq.2⟩
    have hqp : q = p := heq
    rw [hqp] at hq
    exact hp hq.2.1
  · intro hq
    exact ⟨hq.1.1, hq.2⟩

-- ====================================================== side by side

/-- The kernel next to the tables of lab5: the pool is as it should be, and
what tells is as it was. -/
structure Beside (M : Set ν) (c : ν) (i j : Option ν) (k : Kernel A)
    (s : State A) : Prop where
  tables : k.tables = s
  queued : Queued k M
  current : k.current = c
  initproc : s.initproc = i
  idleproc : s.idleproc = j

/-- A call that makes no process of `M` RUNNABLE, and none but the current one
anything else. -/
structure Plain (M : Set ν) (c : ν) (s s' : State A) : Prop where
  idleproc : s'.idleproc = s.idleproc
  initproc : s'.initproc = s.initproc
  state : ∀ p ∈ M, p ≠ c → (s'.procs p).state = (s.procs p).state

theorem Plain.refl : Plain M c s s := ⟨rfl, rfl, fun _ _ _ => rfl⟩

theorem Plain.body (hbody : body s' = body s) (hvars : SameVars s s') :
    Plain M c s s' :=
  ⟨hvars.idleproc, hvars.initproc, fun p _ _ =>
    congrArg Body.state (congrFun hbody p)⟩

/-- A store to other fields, or to a process that does not count. -/
theorem Plain.update {f : ProcStruct ν A.Mm → ProcStruct ν A.Mm}
    (hf : p ∈ M → p ≠ c → (f (s.procs p)).state = (s.procs p).state) :
    Plain M c s (s.update p f) := by
  refine ⟨rfl, rfl, fun q hq hqc => ?_⟩
  rw [update_procs]
  split
  case isTrue hqp =>
      rw [hqp] at hq hqc ⊢
      exact hf hq hqc
  case isFalse => rfl

theorem Plain.storeYptr {o y : Option ν} {x : Unit}
    (hcall : storeYptr o y s = some (x, s')) : Plain M c s s' := by
  have hre := (Relinks.refl s).storeYptr hcall
  exact .body hre.body hre.vars

theorem getPid_procs {pid : Int} (hcall : getPid fuel s = some (pid, s')) :
    s'.procs = s.procs ∧ s'.idleproc = s.idleproc
      ∧ s'.initproc = s.initproc ∧ s'.nrProcess = s.nrProcess := by
  simp only [Process.getPid, bind_eq_some, get_eq_some, ofOption_eq_some,
    modify_eq_some, pure_eq_some] at hcall
  obtain ⟨s₁, s₂, ⟨rfl, rfl⟩, r, s₃, ⟨-, rfl⟩, -, s₄, rfl, -, rfl⟩ := hcall
  exact ⟨rfl, rfl, rfl, rfl⟩

theorem Plain.getPid {pid : Int} (hcall : getPid fuel s = some (pid, s')) :
    Plain M c s s' := by
  obtain ⟨hprocs, hidle, hinit, -⟩ := getPid_procs hcall
  exact ⟨hidle, hinit, fun p _ _ =>
    congrArg ProcStruct.state (congrFun hprocs p)⟩

theorem Beside.tables_sim {α : Type} {m : ProcM A α}
    (h : Beside M c i j k s)
    (hm : ∀ a s', m s = some (a, s') → Plain M c s s') :
    Sim (onTables m) m k s fun a k' s' =>
      Beside M c i j k' s' ∧ m s = some (a, s') := by
  intro a k' hcall
  obtain ⟨rfl, hq, hc, hi, hj⟩ := h
  rw [onTables] at hcall
  cases hrun : m k.tables with
  | none =>
      rw [hrun] at hcall
      cases hcall
  | some r =>
      rw [hrun] at hcall
      cases hcall
      have hplain := hm _ _ hrun
      refine ⟨r.2, rfl, ⟨rfl, ?_, hc, hplain.initproc.trans hi,
        hplain.idleproc.trans hj⟩, rfl⟩
      refine hq.congr rfl rfl rfl hplain.idleproc ?_
      rw [hc]
      exact hplain.state

theorem Beside.get_sim (h : Beside M c i j k s) :
    Sim (onTables get) get k s fun a k' s' =>
      Beside M c i j k' s' ∧ a = s ∧ s' = s := by
  refine (h.tables_sim fun a s' hget => ?_).mono fun a k' s' hR => ?_
  · rw [(get_eq_some.1 hget).2]
    exact .refl
  · exact ⟨hR.1, get_eq_some.1 hR.2⟩

theorem Beside.modify_sim {f : State A → State A} (h : Beside M c i j k s)
    (hf : Plain M c s (f s)) :
    Sim (onTables (modify f)) (modify f) k s fun _ k' s' =>
      Beside M c i j k' s' ∧ s' = f s := by
  refine (h.tables_sim fun a s' hmod => ?_).mono fun a k' s' hR => ?_
  · rw [modify_eq_some.1 hmod]
    exact hf
  · exact ⟨hR.1, modify_eq_some.1 hR.2⟩

theorem Beside.update_sim {f : ProcStruct ν A.Mm → ProcStruct ν A.Mm}
    (h : Beside M c i j k s)
    (hf : p ∈ M → p ≠ c → (f (s.procs p)).state = (s.procs p).state) :
    Sim (onTables (Process.update p f)) (Process.update p f) k s
      fun _ k' s' => Beside M c i j k' s' ∧ s' = s.update p f :=
  h.modify_sim (.update hf)

-- ======================================================= wakeup_proc

/-- What `sched_class_enqueue` does, of a process that is not in the pool and
is to be there but for being idle. -/
theorem schedClassEnqueue_spec
    (hcall : schedClassEnqueue fuel p k = some (u, k'))
    (hroot : Root k.sched.pool k.sched.rq.lab6RunPool t)
    (hnum : k.sched.rq.procNum = BitVec.ofNat 32 (nodes t).length)
    (hp : p ∉ nodes t) :
    k'.tables = k.tables ∧ k'.current = k.current
      ∧ ∃ t', Root k'.sched.pool k'.sched.rq.lab6RunPool t'
        ∧ k'.sched.rq.procNum = BitVec.ofNat 32 (nodes t').length
        ∧ ∀ q, q ∈ nodes t' ↔ q ∈ nodes t
          ∨ q = p ∧ k.tables.idleproc ≠ some p := by
  simp only [schedClassEnqueue, bind_eq_some, onTables_eq_some, get_eq_some]
    at hcall
  obtain ⟨s₁, k₁, ⟨s₂, ⟨rfl, rfl⟩, rfl⟩, hcall⟩ := hcall
  split at hcall
  case isTrue hne =>
      rw [onSched_eq_some] at hcall
      obtain ⟨σ, hrun, rfl⟩ := hcall
      obtain ⟨t', hroot', hnum', hperm⟩ := strideEnqueue_spec hroot hp hrun
      refine ⟨rfl, rfl, t', hroot', ?_, fun q => ?_⟩
      · show σ.rq.procNum = _
        rw [hnum', hnum, hperm.length_eq, List.length_cons]
        exact (BitVec.ofNat_add _ _).symm
      · rw [hperm.mem_iff, List.mem_cons, or_comm]
        exact or_congr_right ⟨fun hq => ⟨hq, hne.symm⟩, fun hq => hq.1⟩
  case isFalse heq =>
      rw [pure_eq_some] at hcall
      rw [hcall.2]
      refine ⟨rfl, rfl, t, hroot, hnum, fun q => ?_⟩
      refine ⟨.inl, fun hq => hq.resolve_right fun hq => ?_⟩
      exact heq hq.2.symm

/-- A process that is woken up goes to the pool. -/
theorem Beside.wakeup_sim (h : Beside M c i j k s) (hp : p ∈ M) :
    Sim (wakeupProc heap p) (Process.wakeupProc p) k s fun _ k' s' =>
      Beside M c i j k' s' ∧ s'.links = s.links
        ∧ s'.nrProcess = s.nrProcess := by
  intro x k' hcall
  obtain ⟨rfl, hq, hc, hi, hj⟩ := h
  simp only [wakeupProc, bind_eq_some, onTables_eq_some, get_eq_some,
    assert_eq_some] at hcall
  obtain ⟨s₁, k₁, ⟨s₂, ⟨rfl, rfl⟩, rfl⟩, x₁, k₂, ⟨hz, rfl⟩, hcall⟩ := hcall
  split at hcall
  case isFalse hrun =>
      rw [pure_eq_some] at hcall
      obtain ⟨-, rfl⟩ := hcall
      refine ⟨k.tables, ?_, ⟨rfl, hq, hc, hi, hj⟩, rfl, rfl⟩
      simp only [Process.wakeupProc, bind_eq_some, get_eq_some,
        assert_eq_some]
      refine ⟨_, _, ⟨rfl, rfl⟩, (), _, ⟨hz, rfl⟩, ?_⟩
      rw [if_neg hrun]
      rfl
  case isTrue hrun =>
      simp only [Process.update, bind_eq_some, onTables_eq_some,
        modify_eq_some, get_eq_some] at hcall
      obtain ⟨x₂, k₃, ⟨s₃, hs₃, rfl⟩, k₄, k₅, ⟨rfl, rfl⟩, hcall⟩ := hcall
      have hwake : Process.wakeupProc p k.tables = some ((), s₃) := by
        simp only [Process.wakeupProc, bind_eq_some, get_eq_some,
          assert_eq_some]
        refine ⟨_, _, ⟨rfl, rfl⟩, (), _, ⟨hz, rfl⟩, ?_⟩
        rw [if_pos hrun, Process.update, modify_eq_some]
        exact hs₃
      have hstate : ∀ q, (s₃.procs q).state
          = if q = p then .runnable else (k.tables.procs q).state := by
        intro q
        rw [hs₃, update_procs]
        split
        case isTrue => rfl
        case isFalse => rfl
      have hvars : s₃.idleproc = k.tables.idleproc
          ∧ s₃.initproc = k.tables.initproc ∧ s₃.links = k.tables.links
          ∧ s₃.nrProcess = k.tables.nrProcess := by
        rw [hs₃]
        exact ⟨rfl, rfl, rfl, rfl⟩
      obtain ⟨t, hroot, hnum, hmem⟩ := hq
      have hpt : p ∉ nodes t := fun hin => hrun ((hmem p).1 hin).2.1
      by_cases hpc : p ≠ k.current
      · rw [if_pos hpc] at hcall
        obtain ⟨htab, hcur, t', hroot', hnum', hmem'⟩ :=
          schedClassEnqueue_spec hcall hroot hnum hpt
        refine ⟨s₃, hwake, ⟨htab, ⟨t', hroot', hnum', fun q => ?_⟩,
          hcur.trans hc, hvars.2.1.trans hi, hvars.1.trans hj⟩, hvars.2.2⟩
        rw [hmem' q, htab, hcur, hmem q]
        show _ ∨ q = p ∧ s₃.idleproc ≠ _ ↔ _ ∧ (s₃.procs q).state = _
          ∧ s₃.idleproc ≠ _ ∧ q ≠ k.current
        rw [hstate q, hvars.1]
        by_cases hqp : q = p
        · rw [if_pos hqp, hqp]
          constructor
          · intro hor
            rcases hor with hin | hin
            · exact ⟨hin.1, rfl, hin.2.2⟩
            · exact ⟨hp, rfl, hin.2, hpc⟩
          · intro hin
            exact .inr ⟨rfl, hin.2.2.1⟩
        · rw [if_neg hqp]
          exact ⟨fun hor => hor.resolve_right fun hin => hqp hin.1, .inl⟩
      · rw [if_neg hpc, pure_eq_some] at hcall
        obtain ⟨-, rfl⟩ := hcall
        have hpeq : p = k.current := not_not.1 hpc
        refine ⟨s₃, hwake, ⟨rfl, ?_, hc, hvars.2.1.trans hi,
          hvars.1.trans hj⟩, hvars.2.2⟩
        have hq : Queued k M := ⟨t, hroot, hnum, hmem⟩
        refine hq.congr rfl rfl rfl hvars.1 ?_
        intro q _ hqc
        show (s₃.procs q).state = _
        rw [hstate q, if_neg]
        intro heq
        exact hqc (heq.trans hpeq)

-- =========================================================== do_exit

/-- The loop of `do_exit` wakes up `initproc` only. -/
theorem reparent_sim (hi : ∀ q, i = some q → q ∈ M) (fuel : Nat) :
    ∀ {k : Kernel A} {s : State A}, Beside M c i j k s →
      Sim (reparent heap c fuel) (Process.reparent c fuel) k s fun _ k' s' =>
        Beside M c i j k' s' := by
  induction fuel with
  | zero =>
      intro k s _
      exact .panic
  | succ fuel ih =>
      intro k s h
      refine h.get_sim.bind fun _ k₁ s₁ hR => ?_
      obtain ⟨h₁, rfl, rfl⟩ := hR
      cases (s₁.procs c).cptr with
      | none => exact .pure h₁
      | some proc =>
          refine Sim.bind (R := fun init k' s' =>
            Beside M c i j k' s' ∧ s₁.initproc = some init)
            (.ofOption fun init hinit => ⟨h₁, hinit⟩)
            fun init k₂ s₂ hR => ?_
          obtain ⟨h₂, hinit⟩ := hR
          have hmem : init ∈ M := hi init (h₁.initproc.symm.trans hinit)
          refine (h₂.update_sim fun _ _ => rfl).bind fun _ k₃ s₃ hR => ?_
          obtain ⟨h₃, -⟩ := hR
          refine (h₃.update_sim fun _ _ => rfl).bind fun _ k₄ s₄ hR => ?_
          obtain ⟨h₄, -⟩ := hR
          refine h₄.get_sim.bind fun _ k₅ s₅ hR => ?_
          obtain ⟨h₅, rfl, rfl⟩ := hR
          refine (h₅.update_sim fun _ _ => rfl).bind fun _ k₆ s₆ hR => ?_
          obtain ⟨h₆, -⟩ := hR
          refine (h₆.tables_sim fun _ _ => .storeYptr).bind fun _ k₇ s₇ hR => ?_
          obtain ⟨h₇, -⟩ := hR
          refine (h₇.update_sim fun _ _ => rfl).bind fun _ k₈ s₈ hR => ?_
          obtain ⟨h₈, -⟩ := hR
          refine (h₈.update_sim fun _ _ => rfl).bind fun _ k₉ s₉ hR => ?_
          obtain ⟨h₉, -⟩ := hR
          refine h₉.get_sim.bind fun _ k₁₀ s₁₀ hR => ?_
          obtain ⟨h₁₀, rfl, rfl⟩ := hR
          refine .ite (fun _ => ?_) (fun _ => ih h₁₀)
          refine (h₁₀.wakeup_sim hmem).bind fun _ k₁₁ s₁₁ hR => ?_
          exact ih hR.1

/-- `do_exit` wakes up the parent and `initproc` only. -/
theorem doExit_sim {code : Int} (h : Beside M c i j k s)
    (hi : ∀ q, i = some q → q ∈ M)
    (hpar : ∀ q, (s.procs c).parent = some q → q ∈ M) :
    Sim (doExit fuel c code) (Process.doExit fuel c code) k s fun _ k' s' =>
      Beside M c i j k' s' := by
  -- from the store of the state on
  have hgo : ∀ {k : Kernel A} {s : State A}, Beside M c i j k s →
      (∀ q, (s.procs c).parent = some q → q ∈ M) →
      Sim (do
          onTables <| Process.update c fun q =>
            { q with state := .zombie, exitCode := code }
          let s ← onTables get
          let proc ← ofOption (s.procs c).parent
          if (s.procs proc).waitState = wtChild then wakeupProc fuel proc
          reparent fuel c fuel)
        (do
          Process.update c fun q =>
            { q with state := .zombie, exitCode := code }
          let s ← get
          let proc ← ofOption (s.procs c).parent
          if (s.procs proc).waitState = wtChild then Process.wakeupProc proc
          Process.reparent c fuel) k s fun _ k' s' => Beside M c i j k' s' := by
    intro k s h hpar
    refine (h.update_sim fun _ hne => absurd rfl hne).bind
      fun _ k₁ s₁ hR => ?_
    obtain ⟨h₁, hs₁⟩ := hR
    refine h₁.get_sim.bind fun _ k₂ s₂ hR => ?_
    obtain ⟨h₂, rfl, rfl⟩ := hR
    have hparent : (s₂.procs c).parent = (s.procs c).parent := by
      rw [hs₁, update_procs, if_pos rfl]
    refine Sim.bind (R := fun proc k' s' =>
      Beside M c i j k' s' ∧ (s₂.procs c).parent = some proc)
      (.ofOption fun proc hproc => ⟨h₂, hproc⟩) fun proc k₃ s₃ hR => ?_
    obtain ⟨h₃, hproc⟩ := hR
    refine .ite (fun _ => ?_) (fun _ => reparent_sim hi fuel h₃)
    refine (h₃.wakeup_sim (hpar proc (hparent.symm.trans hproc))).bind
      fun _ k₄ s₄ hR => ?_
    exact reparent_sim hi fuel hR.1
  refine h.get_sim.bind fun _ k₁ s₁ hR => ?_
  obtain ⟨h₁, rfl, rfl⟩ := hR
  refine Sim.bind (R := fun _ k' s' => Beside M c i j k' s' ∧ s' = s₁)
    (.assert fun _ => ⟨h₁, rfl⟩) fun _ k₂ s₂ hR => ?_
  obtain ⟨h₂, hs₂⟩ := hR
  refine Sim.bind (R := fun _ k' s' => Beside M c i j k' s' ∧ s' = s₁)
    (.assert fun _ => ⟨h₂, hs₂⟩) fun _ k₃ s₃ hR => ?_
  obtain ⟨h₃, hs₃⟩ := hR
  cases (s₁.procs c).mm with
  | none =>
      refine hgo h₃ ?_
      rw [hs₃]
      exact hpar
  | some mm =>
      refine Sim.bind (R := fun _ k' s' => Beside M c i j k' s' ∧ s' = s₁)
        (.ofOption fun _ _ => ⟨h₃, hs₃⟩) fun mem k₄ s₄ hR => ?_
      obtain ⟨h₄, hs₄⟩ := hR
      refine (h₄.modify_sim ⟨rfl, rfl, fun _ _ _ => rfl⟩).bind
        fun _ k₅ s₅ hR => ?_
      obtain ⟨h₅, hs₅⟩ := hR
      refine (h₅.update_sim fun _ _ => rfl).bind fun _ k₆ s₆ hR => ?_
      obtain ⟨h₆, hs₆⟩ := hR
      refine hgo h₆ ?_
      rw [hs₆, update_procs, if_pos rfl, hs₅, hs₄]
      exact hpar

-- =========================================================== do_kill

/-- `do_kill` wakes up the process it finds. -/
theorem doKill_sim {pid : Int} (h : Beside M c i j k s)
    (hfind : ∀ r s', findProc fuel pid s = some (r, s') →
      s' = s ∧ ∀ q, r = some q → q ∈ M) :
    Sim (doKill fuel pid) (Process.doKill fuel pid) k s fun _ k' s' =>
      Beside M c i j k' s' := by
  refine (h.tables_sim fun r s' hcall => ?_).bind fun r k₁ s₁ hR => ?_
  · rw [(hfind r s' hcall).1]
    exact .refl
  obtain ⟨h₁, hcall⟩ := hR
  have hr := (hfind r s₁ hcall).2
  cases r with
  | none => exact .pure h₁
  | some proc =>
      refine h₁.get_sim.bind fun _ k₂ s₂ hR => ?_
      obtain ⟨h₂, rfl, rfl⟩ := hR
      refine .ite (fun _ => .pure h₂) (fun _ => ?_)
      refine (h₂.update_sim fun _ _ => rfl).bind fun _ k₃ s₃ hR => ?_
      obtain ⟨h₃, -⟩ := hR
      refine .ite (fun _ => ?_) (fun _ => .pure h₃)
      refine (h₃.wakeup_sim (hr proc rfl)).bind fun _ k₄ s₄ hR => ?_
      exact .pure hR.1

-- =========================================================== do_wait

theorem onTables_quiet {α : Type} {m : ProcM A α} (h : Beside M c i j k s)
    (hm : ∀ a s', m s = some (a, s') → Plain M c s s') :
    Sim (onTables m) m k s fun _ k' s' => Beside M c i j k' s' :=
  (h.tables_sim hm).mono fun _ _ _ hR => hR.1

-- =========================================================== do_fork

/-- A process that is allocated was none of `M`, and is not RUNNABLE. -/
theorem allocProc_sim (h : Beside M c i j k s) (hlive : M ⊆ A.live s.mem) :
    Sim allocProc Process.allocProc k s fun o k' s' =>
      Beside M c i j k' s' ∧ M ⊆ A.live s'.mem ∧ s'.nrProcess = s.nrProcess
        ∧ ∀ p, o = some p → p ∉ M ∧ (s'.procs p).state = .uninit := by
  intro o k' hcall
  rw [allocProc, bind_eq_some] at hcall
  obtain ⟨o', k₁, htables, hrest⟩ := hcall
  have hplain : ∀ o s', Process.allocProc s = some (o, s') →
      Plain M c s s' := by
    intro o s' hrun
    obtain ⟨hframe, -⟩ := allocProc_spec hlive hrun
    exact ⟨hframe.vars.idleproc, hframe.vars.initproc, fun p hp _ =>
      congrArg ProcStruct.state (hframe.procs p hp)⟩
  obtain ⟨s', hrun, h₁, -⟩ := h.tables_sim hplain o' k₁ htables
  obtain ⟨hframe, hlive', hnew⟩ := allocProc_spec hlive hrun
  have hout : ∀ p, o' = some p → p ∉ M ∧ (s'.procs p).state = .uninit := by
    intro p hp
    obtain ⟨hpM, -, hst, -⟩ := hnew p hp
    exact ⟨hpM, hst⟩
  cases o' with
  | none =>
      obtain ⟨rfl, rfl⟩ := pure_eq_some.1 hrest
      exact ⟨s', hrun, h₁, hlive', hframe.nrProcess, hout⟩
  | some p =>
      obtain ⟨x, k₂, hset, hret⟩ := bind_eq_some.1 hrest
      obtain ⟨rfl, rfl⟩ := pure_eq_some.1 hret
      have hq := h₁.queued.setNeedResched hset
      rw [setNeedResched, modify_eq_some] at hset
      refine ⟨s', hrun, ⟨?_, hq, ?_, h₁.initproc, h₁.idleproc⟩, hlive',
        hframe.nrProcess, hout⟩
      · rw [hset]
        exact h₁.tables
      · rw [hset]
        exact h₁.current

/-- The process that do_fork sets up, next to the one of lab5: it is not
RUNNABLE yet, and not counted. -/
structure Fresh (M : Set ν) (c : ν) (i j : Option ν) (n : Int) (proc : ν)
    (k : Kernel A) (s : State A) : Prop extends Beside M c i j k s where
  state : (s.procs proc).state = .uninit
  count : s.nrProcess = n

variable {n : Int}

theorem Fresh.update_sim {f : ProcStruct ν A.Mm → ProcStruct ν A.Mm}
    (h : Fresh M c i j n proc k s) (hproc : proc ∉ M)
    (hf : ∀ r, (f r).state = r.state) :
    Sim (onTables (Process.update proc f)) (Process.update proc f) k s
      fun _ k' s' => Fresh M c i j n proc k' s' := by
  refine (h.toBeside.update_sim fun hp => absurd hp hproc).mono
    fun _ k' s' hR => ⟨hR.1, ?_, ?_⟩
  · rw [hR.2, update_procs, if_pos rfl, hf]
    exact h.state
  · rw [hR.2]
    exact h.count

theorem Fresh.modify_sim {f : State A → State A} (h : Fresh M c i j n proc k s)
    (hprocs : (f s).procs = s.procs) (hidle : (f s).idleproc = s.idleproc)
    (hinit : (f s).initproc = s.initproc)
    (hcount : (f s).nrProcess = s.nrProcess) :
    Sim (onTables (modify f)) (modify f) k s
      fun _ k' s' => Fresh M c i j n proc k' s' := by
  have hstate : ∀ p, ((f s).procs p).state = (s.procs p).state := fun p =>
    congrArg ProcStruct.state (congrFun hprocs p)
  refine (h.toBeside.modify_sim ⟨hidle, hinit, fun p _ _ => hstate p⟩).mono
    fun _ k' s' hR => ⟨hR.1, ?_, ?_⟩
  · rw [hR.2, hstate]
    exact h.state
  · rw [hR.2, hcount]
    exact h.count

theorem Fresh.getPid_sim (h : Fresh M c i j n proc k s) :
    Sim (onTables (getPid fuel)) (getPid fuel) k s
      fun _ k' s' => Fresh M c i j n proc k' s' := by
  refine (h.toBeside.tables_sim fun _ _ => .getPid).mono
    fun _ k' s' hR => ?_
  obtain ⟨hprocs, -, -, hcount⟩ := getPid_procs hR.2
  refine ⟨hR.1, ?_, hcount.trans h.count⟩
  rw [hprocs]
  exact h.state

/-- `set_links` puts the process first on `proc_list`. -/
theorem Fresh.setLinks_sim (h : Fresh M c i j n proc k s) :
    Sim (onTables (setLinks proc)) (setLinks proc) k s fun _ k' s' =>
      Fresh M c i j (n + 1) proc k' s'
        ∧ s'.links.next .procList = .listLink proc := by
  refine (h.toBeside.tables_sim fun _ s' hcall => ?_).mono
    fun _ k' s' hR => ?_
  · obtain ⟨p, -, hre⟩ := setLinks_spec hcall
    exact .body hre.body hre.vars
  · obtain ⟨p, -, hre⟩ := setLinks_spec hR.2
    refine ⟨⟨hR.1, ?_, ?_⟩, ?_⟩
    · have hst : (s'.procs proc).state = (s.procs proc).state :=
        congrArg Body.state (congrFun hre.body proc)
      rw [hst]
      exact h.state
    · rw [hre.nrProcess, h.count]
    · rw [hre.links]
      simp [listAdd, listAddAfter]

/-- A do_fork that fails changes nothing that counts; one that succeeds adds
the process that is now first on `proc_list`. -/
def Grown (M : Set ν) (c : ν) (i j : Option ν) (n ret : Int) (k : Kernel A)
    (s : State A) : Prop :=
  ret < 0 ∧ Beside M c i j k s ∧ s.nrProcess = n
    ∨ ∃ proc, proc ∉ M ∧ Beside (insert proc M) c i j k s
      ∧ s.links.next .procList = .listLink proc ∧ s.nrProcess = n + 1

theorem doForkWith_sim {flags : BitVec 32} (h : Fresh M c i j n proc k s)
    (hproc : proc ∉ M) :
    Sim (doForkWith fuel c flags proc) (Process.doForkWith fuel c flags proc)
      k s (Grown M c i j n) := by
  rw [doForkWith, Process.doForkWith]
  refine Sim.bind (h.update_sim hproc fun _ => rfl)
    fun _ k₁ s₁ h₁ => ?_
  refine h₁.toBeside.get_sim.bind fun _ k₂ s₂ hR => ?_
  obtain ⟨hb₂, rfl, rfl⟩ := hR
  have h₂ : Fresh M c i j n proc k₂ s₂ := ⟨hb₂, h₁.state, h₁.count⟩
  refine Sim.bind (R := fun _ k' s' => Fresh M c i j n proc k' s')
    (.assert fun _ => h₂) fun _ k₃ s₃ h₃ => ?_
  refine Sim.bind (h₃.modify_sim rfl rfl rfl rfl)
    fun _ k₄ s₄ h₄ => ?_
  cases (A.setupKstack s₂.mem).1 with
  | none =>
      refine Sim.bind (h₄.modify_sim rfl rfl rfl rfl)
        fun _ k₅ s₅ h₅ => ?_
      exact .pure (.inl ⟨by decide, h₅.toBeside, h₅.count⟩)
  | some kstack =>
      refine Sim.bind (h₄.update_sim hproc fun _ => rfl)
        fun _ k₅ s₅ h₅ => ?_
      refine h₅.toBeside.get_sim.bind fun _ k₆ s₆ hR => ?_
      obtain ⟨hb₆, rfl, rfl⟩ := hR
      have h₆ : Fresh M c i j n proc k₆ s₆ := ⟨hb₆, h₅.state, h₅.count⟩
      refine Sim.bind (R := fun _ k' s' => Fresh M c i j n proc k' s')
        (.ofOption fun _ _ => h₆) fun r k₇ s₇ h₇ => ?_
      refine Sim.bind (h₇.modify_sim rfl rfl rfl rfl)
        fun _ k₈ s₈ h₈ => ?_
      refine .ite (fun _ => ?_) (fun _ => ?_)
      · refine Sim.bind (h₈.update_sim hproc fun _ => rfl)
          fun _ k₉ s₉ h₉ => ?_
        refine h₉.getPid_sim.bind fun pid k₁₀ s₁₀ h₁₀ => ?_
        refine Sim.bind (h₁₀.update_sim hproc fun _ => rfl)
          fun _ k₁₁ s₁₁ h₁₁ => ?_
        refine Sim.bind (h₁₁.modify_sim rfl rfl rfl rfl)
          fun _ k₁₂ s₁₂ h₁₂ => ?_
        refine h₁₂.setLinks_sim.bind fun _ k₁₃ s₁₃ hR => ?_
        obtain ⟨h₁₃, hnext⟩ := hR
        have hin : Beside (insert proc M) c i j k₁₃ s₁₃ := by
          refine ⟨h₁₃.tables, h₁₃.queued.insert ?_, h₁₃.current,
            h₁₃.initproc, h₁₃.idleproc⟩
          rw [h₁₃.tables, h₁₃.state]
          intro hst
          cases hst
        refine (hin.wakeup_sim (Set.mem_insert proc M)).bind
          fun _ k₁₄ s₁₄ hR => ?_
        obtain ⟨h₁₄, hlinks, hcount⟩ := hR
        refine .pure (.inr ⟨proc, hproc, h₁₄, ?_, hcount.trans h₁₃.count⟩)
        rw [hlinks]
        exact hnext
      · refine Sim.bind (h₈.modify_sim rfl rfl rfl rfl)
          fun _ k₉ s₉ h₉ => ?_
        exact .pure (.inl ⟨by decide, h₉.toBeside, h₉.count⟩)

theorem doFork_sim {flags : BitVec 32} (h : Beside M c i j k s)
    (hlive : M ⊆ A.live s.mem) :
    Sim (doFork fuel c flags) (Process.doFork fuel c flags) k s
      fun ret k' s' => Grown M c i j s.nrProcess ret k' s'
        ∧ (0 ≤ ret → s.nrProcess < maxProcess) := by
  refine h.get_sim.bind fun _ k₁ s₁ hR => ?_
  obtain ⟨h₁, rfl, rfl⟩ := hR
  refine .ite (fun _ => .pure ⟨.inl ⟨by decide, h₁, rfl⟩, ?_⟩)
    (fun hmax => ?_)
  · intro hret
    exact absurd hret (by decide)
  refine (allocProc_sim h₁ hlive).bind fun first k₂ s₂ hR => ?_
  obtain ⟨h₂, hlive₂, hcount₂, -⟩ := hR
  refine Sim.bind (R := fun _ k' s' => Beside M c i j k' s' ∧ s' = s₂)
    (.ofOption fun _ _ => ⟨h₂, rfl⟩) fun _ k₃ s₃ hR => ?_
  obtain ⟨h₃, rfl⟩ := hR
  refine (allocProc_sim h₃ hlive₂).bind fun second k₄ s₄ hR => ?_
  obtain ⟨h₄, -, hcount₄, hnew⟩ := hR
  refine Sim.bind (R := fun proc k' s' =>
    Fresh M c i j s₁.nrProcess proc k' s' ∧ proc ∉ M)
    (.ofOption fun proc hsome =>
      ⟨⟨h₄, (hnew proc hsome).2, hcount₄.trans hcount₂⟩,
        (hnew proc hsome).1⟩)
    fun proc k₅ s₅ hR => ?_
  refine (doForkWith_sim hR.1 hR.2).mono fun _ _ _ hgrown => ⟨hgrown, ?_⟩
  intro _
  omega

-- ========================================================== schedule

/-- A tick changes neither the tables nor the pool. -/
theorem schedClassProcTick_spec
    (hcall : schedClassProcTick p k = some (u, k')) :
    ∃ σ : Sched.Sched ν, σ.pool = k.sched.pool ∧ σ.rq = k.sched.rq
      ∧ k' = { k with sched := σ } := by
  simp only [schedClassProcTick, bind_eq_some, onTables_eq_some, get_eq_some]
    at hcall
  obtain ⟨s₁, k₁, ⟨s₂, ⟨rfl, rfl⟩, rfl⟩, hcall⟩ := hcall
  split at hcall
  case isTrue =>
      obtain ⟨σ, hσ, rfl⟩ := onSched_eq_some.1 hcall
      cases hσ
      exact ⟨Sched.strideProcTick p k.sched, rfl, rfl, rfl⟩
  case isFalse =>
      rw [setNeedResched, modify_eq_some] at hcall
      exact ⟨k.sched.setProc p { k.sched.procs p with needResched := true },
        rfl, rfl, hcall⟩

theorem schedClassPickNext_spec {quotient : BitVec 32} {o : Option ν}
    (hcall : schedClassPickNext quotient k = some (o, k')) :
    o = k.sched.rq.lab6RunPool ∧ k'.tables = k.tables
      ∧ k'.current = k.current ∧ k'.sched.pool = k.sched.pool
      ∧ k'.sched.rq = k.sched.rq := by
  rw [schedClassPickNext, Sched.stridePickNext] at hcall
  cases hpool : k.sched.rq.lab6RunPool with
  | none =>
      rw [hpool] at hcall
      cases hcall
      exact ⟨rfl, rfl, rfl, rfl, rfl⟩
  | some p =>
      rw [hpool] at hcall
      dsimp only at hcall
      by_cases hzero : (k.sched.procs p).lab6Priority = 0
      · rw [if_pos hzero] at hcall
        cases hcall
        exact ⟨rfl, rfl, rfl, rfl, rfl⟩
      · rw [if_neg hzero] at hcall
        cases hcall
        exact ⟨rfl, rfl, rfl, rfl, rfl⟩

/-- `schedule` puts the current process into the pool when it is RUNNABLE, and
takes the one out that runs next. -/
theorem schedule_spec {quotient : BitVec 32} (h : Queued k M)
    (hcur : k.current ∈ M) (hcall : schedule fuel quotient k = some (u, k')) :
    k'.tables = k.tables ∧ Queued k' M
      ∧ (k.tables.idleproc = some k'.current
        ∨ k'.current ∈ M ∧ (k.tables.procs k'.current).state = .runnable) := by
  simp only [schedule, bind_eq_some, get_eq_some] at hcall
  obtain ⟨k₁, k₂, ⟨rfl, rfl⟩, x₁, k₃, hset, hcall⟩ := hcall
  obtain ⟨t, hroot, hnum, hmem⟩ := h.setNeedResched hset
  rw [setNeedResched, modify_eq_some] at hset
  have htab₃ : k₃.tables = k₂.tables := by rw [hset]
  have hcur₃ : k₃.current = k₂.current := by rw [hset]
  rw [htab₃, hcur₃] at hmem
  -- with the current process, if it is RUNNABLE
  obtain ⟨k₄, htab₄, hcur₄, ⟨t₁, hroot₁, hnum₁, hmem₁⟩, hcall⟩ :
      ∃ k₄ : Kernel A, k₄.tables = k₂.tables ∧ k₄.current = k₂.current
        ∧ (∃ t₁, Root k₄.sched.pool k₄.sched.rq.lab6RunPool t₁
          ∧ k₄.sched.rq.procNum = BitVec.ofNat 32 (nodes t₁).length
          ∧ ∀ p, p ∈ nodes t₁ ↔ p ∈ M
            ∧ (k₂.tables.procs p).state = .runnable
            ∧ k₂.tables.idleproc ≠ some p)
        ∧ (do
            let next ← schedClassPickNext quotient
            next.elim (do
                let s ← onTables get
                let idle ← ofOption s.idleproc
                procRun idle)
              (fun next => do
                schedClassDequeue fuel next
                procRun next) : KernelM A Unit) k₄ = some (u, k') := by
    split at hcall
    case isTrue hrun =>
        rw [bind_eq_some] at hcall
        obtain ⟨x₂, k₄, henq, hcall⟩ := hcall
        have hnot : k₂.current ∉ nodes t := fun hin =>
          ((hmem k₂.current).1 hin).2.2.2 rfl
        obtain ⟨htab₄, hcur₄, t₁, hroot₁, hnum₁, hmem₁⟩ :=
          schedClassEnqueue_spec henq hroot hnum hnot
        refine ⟨k₄, htab₄.trans htab₃, hcur₄.trans hcur₃,
          ⟨t₁, hroot₁, hnum₁, fun p => ?_⟩,
          bind_rest hcall fun next => by cases next <;> rfl⟩
        rw [hmem₁ p, hmem p, htab₃]
        by_cases hp : p = k₂.current
        · rw [hp]
          refine ⟨fun hor => ?_, fun hin => .inr ⟨rfl, hin.2.2⟩⟩
          rcases hor with hin | hin
          · exact ⟨hin.1, hin.2.1, hin.2.2.1⟩
          · exact ⟨hcur, hrun, hin.2⟩
        · refine ⟨fun hor => ?_, fun hin => .inl ⟨hin.1, hin.2.1, hin.2.2, hp⟩⟩
          have hin := hor.resolve_right fun hin => hp hin.1
          exact ⟨hin.1, hin.2.1, hin.2.2.1⟩
    case isFalse hrun =>
        refine ⟨k₃, htab₃, hcur₃, ⟨t, hroot, hnum, fun p => ?_⟩,
          bind_rest hcall fun next => by cases next <;> rfl⟩
        rw [hmem p]
        refine ⟨fun hin => ⟨hin.1, hin.2.1, hin.2.2.1⟩, fun hin =>
          ⟨hin.1, hin.2.1, hin.2.2, fun hp => ?_⟩⟩
        rw [hp] at hin
        exact hrun hin.2.1
  rw [bind_eq_some] at hcall
  obtain ⟨next, k₅, hpick, hcall⟩ := hcall
  obtain ⟨hnext, htab₅, hcur₅, hpool₅, hrq₅⟩ := schedClassPickNext_spec hpick
  rw [← hpool₅, ← hrq₅] at hroot₁
  rw [← hrq₅] at hnum₁ hnext
  have htab : k₅.tables = k₂.tables := htab₅.trans htab₄
  cases next with
  | some next =>
      simp only [Option.elim_some, schedClassDequeue, procRun, bind_eq_some,
        onSched_eq_some, modify_eq_some] at hcall
      obtain ⟨x₃, k₆, ⟨σ, hdeq, rfl⟩, rfl⟩ := hcall
      have hin : next ∈ nodes t₁ := by
        have hshape := hroot₁.shape
        rw [← hnext] at hshape
        exact hshape.mem
      obtain ⟨hM, hrun, hidle⟩ := (hmem₁ next).1 hin
      obtain ⟨t₂, hroot₂, hnum₂, hperm⟩ := strideDequeue_spec hroot₁ hin hdeq
      have hnd := hperm.nodup_iff.1 hroot₁.nodup
      refine ⟨htab, ⟨t₂, hroot₂, ?_, fun p => ?_⟩, .inr ⟨hM, hrun⟩⟩
      · show σ.rq.procNum = _
        rw [hnum₂, hnum₁, hperm.length_eq, List.length_cons, BitVec.ofNat_add]
        exact BitVec.add_sub_cancel _ _
      · show p ∈ nodes t₂ ↔ p ∈ M ∧ (k₅.tables.procs p).state = _
          ∧ k₅.tables.idleproc ≠ _ ∧ p ≠ next
        have hp := hmem₁ p
        rw [hperm.mem_iff, List.mem_cons] at hp
        rw [htab]
        constructor
        · intro hpt
          obtain ⟨hpM, hprun, hpidle⟩ := hp.1 (.inr hpt)
          refine ⟨hpM, hprun, hpidle, fun heq => ?_⟩
          rw [heq] at hpt
          exact (List.nodup_cons.1 hnd).1 hpt
        · intro hpt
          exact (hp.2 ⟨hpt.1, hpt.2.1, hpt.2.2.1⟩).resolve_left hpt.2.2.2
  | none =>
      simp only [Option.elim_none, procRun, bind_eq_some, onTables_eq_some,
        get_eq_some, ofOption_eq_some, modify_eq_some] at hcall
      obtain ⟨s₁, k₆, ⟨s₂, ⟨rfl, rfl⟩, rfl⟩, idle, k₇, ⟨hidle, rfl⟩, rfl⟩ :=
        hcall
      have hnil : t₁ = .nil := by
        have hshape := hroot₁.shape
        rw [← hnext] at hshape
        cases t₁ with
        | nil => rfl
        | node y l r => cases hshape.1
      rw [htab] at hidle
      refine ⟨htab, ⟨t₁, hroot₁, hnum₁, fun p => ?_⟩, .inl hidle⟩
      show p ∈ nodes t₁ ↔ p ∈ M ∧ (k₅.tables.procs p).state = _
        ∧ k₅.tables.idleproc ≠ _ ∧ p ≠ idle
      rw [hmem₁ p, htab]
      refine ⟨fun hin => ?_, fun hin => ⟨hin.1, hin.2.1, hin.2.2.1⟩⟩
      have hpt := (hmem₁ p).2 hin
      rw [hnil] at hpt
      cases hpt

end Ucore.Schedule
