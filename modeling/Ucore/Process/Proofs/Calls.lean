/-
What do_fork, do_exit, do_wait and do_kill do: to the tables, one of the
operations on a roster; to the processes, a change of status.
-/
import Ucore.Process.Proofs.Tables

namespace Ucore.Process

open Ring

variable {ν : Type} [DecidableEq ν] {A : Memory ν} {s s' t : State A} {R : Roster ν}
  {S : Set ν} {p q c proc current init : ν} {pid code : Int} {fuel : Nat}
  {x : Unit} {mem : A.State}

-- ============================================================ frames

/-- The processes of `S` and the tables' variables are as they were. -/
structure Frame (S : Set ν) (s s' : State A) : Prop where
  procs : ∀ q ∈ S, s'.procs q = s.procs q
  links : s'.links = s.links
  nrProcess : s'.nrProcess = s.nrProcess
  vars : SameVars s s'

theorem Frame.refl (S : Set ν) (s : State A) : Frame S s s :=
  ⟨fun _ _ => rfl, rfl, rfl, .refl s⟩

theorem Frame.trans (h : Frame S s t) (h' : Frame S t s') : Frame S s s' :=
  ⟨fun q hq => (h'.procs q hq).trans (h.procs q hq),
    h'.links.trans h.links, h'.nrProcess.trans h.nrProcess,
    h.vars.trans h'.vars⟩

theorem Frame.mono {S' : Set ν} (h : Frame S s s') (hS : S' ⊆ S) :
    Frame S' s s' :=
  ⟨fun q hq => h.procs q (hS hq), h.links, h.nrProcess, h.vars⟩

theorem Frame.setMem (h : Frame S s t) (mem : A.State) :
    Frame S s { t with mem } :=
  h.trans ⟨fun _ _ => rfl, rfl, rfl, ⟨rfl, rfl, rfl, rfl⟩⟩

theorem Frame.body (h : Frame S s s') (hq : q ∈ S) :
    body s' q = body s q := by
  unfold Process.body
  rw [h.procs q hq]

theorem Frame.sameTables (h : Frame S s s') : SameTables s s' S := by
  refine ⟨h.links, h.nrProcess, h.vars.lastPid, h.vars.nextSafe,
    h.vars.idleproc, ?_, ?_, ?_, ?_, ?_⟩
  · exact fun p hp => congrArg ProcStruct.pid (h.procs p hp)
  · exact fun p hp => congrArg ProcStruct.parent (h.procs p hp)
  · exact fun p hp => congrArg ProcStruct.cptr (h.procs p hp)
  · exact fun p hp => congrArg ProcStruct.yptr (h.procs p hp)
  · exact fun p hp => congrArg ProcStruct.optr (h.procs p hp)

theorem Frame.update (h : Frame S s t) (hp : p ∉ S)
    (f : ProcStruct ν A.Mm → ProcStruct ν A.Mm) :
    Frame S s (t.update p f) := by
  refine h.trans ⟨fun q hq => ?_, rfl, rfl, update_sameVars t p f⟩
  have hqp : q ≠ p := fun heq => hp (heq ▸ hq)
  rw [update_procs, if_neg hqp]

-- ======================================================== alloc_proc

/-- A new `proc_struct` was not allocated; it has no child and no
status. -/
theorem allocProc_spec {o : Option ν} (hS : S ⊆ A.live s.mem)
    (hcall : allocProc s = some (o, s')) :
    Frame S s s' ∧ S ⊆ A.live s'.mem
      ∧ ∀ proc, o = some proc → proc ∉ S ∧ proc ∈ A.live s'.mem
        ∧ (s'.procs proc).state = .uninit
        ∧ (s'.procs proc).waitState = 0
        ∧ (s'.procs proc).cptr = none := by
  simp only [allocProc, Call.bind_eq_some, Call.get_eq_some] at hcall
  obtain ⟨s₁, s₂, ⟨rfl, rfl⟩, hcall⟩ := hcall
  cases hk : A.kmalloc s₂.mem with
  | mk r mem =>
  rw [hk] at hcall
  cases r with
  | none =>
      simp only [Call.bind_eq_some, Call.modify_eq_some,
        Call.pure_eq_some] at hcall
      obtain ⟨-, s₃, rfl, rfl, rfl⟩ := hcall
      have hlive := A.kmalloc_none hk
      refine ⟨(Frame.refl S s₂).setMem mem, ?_, fun _ h => by cases h⟩
      show S ⊆ A.live mem
      rw [hlive]
      exact hS
  | some new =>
      simp only [Call.bind_eq_some, Call.modify_eq_some, Process.update,
        Call.pure_eq_some] at hcall
      obtain ⟨-, s₃, rfl, -, s₄, rfl, rfl, rfl⟩ := hcall
      obtain ⟨hnew, hlive⟩ := A.kmalloc_some hk
      have hnot : new ∉ S := fun hmem => hnew (hS hmem)
      refine ⟨((Frame.refl S s₂).setMem mem).update hnot _, ?_, ?_⟩
      · show S ⊆ A.live mem
        rw [hlive]
        exact hS.trans (Set.subset_insert new _)
      · intro proc hproc
        rw [← Option.some.inj hproc]
        refine ⟨hnot, ?_, ?_, ?_, ?_⟩
        · show new ∈ A.live mem
          rw [hlive]
          exact Set.mem_insert new _
        all_goals
          rw [update_procs, if_pos rfl]

-- =========================================================== do_fork

/-- A failed do_fork leaves the processes alone; one that succeeds adds a
RUNNABLE child of `current`. The blocks of `S`, in use before, still
are. -/
inductive Forked (s s' : State A) (R : Roster ν) (S : Set ν) (current : ν)
    (ret : Int) : Prop
  | failed (hret : ret < 0) (hframe : Frame R.members s s')
      (hlive : S ⊆ A.live s'.mem)
  | child (proc : ν) (i : BitVec 32) (hnew : proc ∉ S)
      (hlive : S ⊆ A.live s'.mem)
      (htables : Tables s' (R.join proc current i) ∅)
      (hbody : ∀ q ∈ R.members, body s' q = body s q)
      (hstate : (s'.procs proc).state = .runnable)
      (hws : (s'.procs proc).waitState = 0)
      (hpid : (s'.procs proc).pid = ret)
      (hinit : s'.initproc = s.initproc)

theorem Forked.of_frame {ret : Int} (hf : Frame R.members s t)
    (h : Forked t s' R S current ret) : Forked s s' R S current ret := by
  cases h with
  | failed hret hframe hlive => exact .failed hret (hf.trans hframe) hlive
  | child proc i hnew hlive htables hbody hstate hws hpid hinit =>
      refine .child proc i hnew hlive htables (fun q hq => ?_) hstate hws hpid
        (hinit.trans hf.vars.initproc)
      exact (hbody q hq).trans (hf.body hq)

theorem Forked.live {ret : Int} (h : Forked s s' R S current ret) :
    S ⊆ A.live s'.mem := by
  cases h with
  | failed _ _ hlive => exact hlive
  | child _ _ _ hlive => exact hlive

/-- The process that do_fork sets up, before it is in the tables. -/
structure Nascent (s t : State A) (S : Set ν) (proc current : ν) :
    Prop where
  frame : Frame S s t
  notMem : proc ∉ S
  live : insert proc S ⊆ A.live t.mem
  state : (t.procs proc).state = .uninit
  waitState : (t.procs proc).waitState = 0
  cptr : (t.procs proc).cptr = none
  parent : (t.procs proc).parent = some current

theorem Nascent.setMem (h : Nascent s t S proc current)
    (hlive : A.live mem = A.live t.mem) :
    Nascent s { t with mem } S proc current where
  frame := h.frame.setMem mem
  notMem := h.notMem
  live := by
    show insert proc S ⊆ A.live mem
    rw [hlive]
    exact h.live
  state := h.state
  waitState := h.waitState
  cptr := h.cptr
  parent := h.parent

theorem Nascent.update (h : Nascent s t S proc current)
    {f : ProcStruct ν A.Mm → ProcStruct ν A.Mm}
    (hf : ∀ r, (f r).state = r.state ∧ (f r).waitState = r.waitState
      ∧ (f r).cptr = r.cptr ∧ (f r).parent = r.parent) :
    Nascent s (t.update proc f) S proc current := by
  have hself : (t.update proc f).procs proc = f (t.procs proc) := by
    rw [update_procs, if_pos rfl]
  obtain ⟨h1, h2, h3, h4⟩ := hf (t.procs proc)
  refine ⟨h.frame.update h.notMem f, h.notMem, h.live, ?_, ?_, ?_, ?_⟩
  · rw [hself, h1]
    exact h.state
  · rw [hself, h2]
    exact h.waitState
  · rw [hself, h3]
    exact h.cptr
  · rw [hself, h4]
    exact h.parent

/-- The clean-up of do_fork frees a process that is in no table. -/
theorem Nascent.free (h : Nascent s t S proc current)
    (hmem : A.live mem = A.live t.mem) :
    Frame S s { t with mem := A.kfree proc mem }
      ∧ S ⊆ A.live (A.kfree proc mem) := by
  refine ⟨h.frame.setMem _, fun q hq => ?_⟩
  rw [A.kfree_live, hmem]
  refine ⟨h.live (Set.mem_insert_of_mem proc hq), ?_⟩
  intro heq
  exact h.notMem (Set.mem_singleton_iff.1 heq ▸ hq)

/-- The end of do_fork: the process gets a pid, joins the tables and is
made RUNNABLE. -/
theorem Nascent.join {s₁ s₂ s₃ s₄ : State A} {u : Unit}
    (h : Nascent s t S proc current) (hS : R.members ⊆ S)
    (htab : Tables s R ∅)
    (hcur : current ∈ R.members) (hpid : getPid fuel t = some (pid, s₁))
    (hs₂ : s₂ = s₁.update proc fun q => { q with pid })
    (hs₃ : s₃ = s₂.setLinks (listAdd s₂.links
      (.hashList (pidHashfn (s₂.procs proc).pid)) (.hashLink proc)))
    (hlinks : setLinks proc s₃ = some (x, s₄))
    (hwake : wakeupProc proc s₄ = some (u, s')) :
    Forked s s' R S current pid := by
  have hlive : S ⊆ A.live t.mem := fun q hq =>
    h.live (Set.mem_insert_of_mem proc hq)
  have htab' : Tables t R ∅ :=
    htab.congr (h.frame.mono hS).sameTables (hS.trans hlive)
  obtain ⟨hone, hmax, hfresh, n, hs₁, hlt, hsafe, hno⟩ :=
    getPid_spec htab'.list htab'.pids hpid
  have hinv : PidInv s₁ R.procs := by
    rw [hs₁]
    refine ⟨by show 0 ≤ pid; omega, hsafe, fun q hq hin => hno q hq ?_⟩
    have hlow : pid + 1 ≤ (t.procs q).pid := hin.1
    exact ⟨by omega, hin.2⟩
  have htab₁ : Tables s₁ R ∅ := by
    rw [hs₁] at hinv ⊢
    exact { htab' with pids := hinv }
  have hself : s₂.procs proc = { s₁.procs proc with pid } := by
    rw [hs₂, update_procs, if_pos rfl]
  have hf₂ : Frame S s₁ s₂ := by
    rw [hs₂]
    exact (Frame.refl _ s₁).update h.notMem _
  have hprocs₁ : s₁.procs = t.procs := by rw [hs₁]
  have hlive₂ : insert proc S ⊆ A.live s₂.mem := by
    have hmem : s₂.mem = t.mem := by rw [hs₂, hs₁]; rfl
    rw [hmem]
    exact h.live
  have htab₂ : Tables s₂ R ∅ := htab₁.congr (hf₂.mono hS).sameTables
    fun q hq => hlive₂ (Set.mem_insert_of_mem proc (hS hq))
  have hpid₂ : (s₂.procs proc).pid = pid := by rw [hself]
  have hlast₂ : s₂.lastPid = pid := by
    rw [hs₂, hs₁]
    rfl
  rw [hs₃] at hlinks
  obtain ⟨hjoin, hbody, hmem, hvars⟩ := htab₂.join (fun hm => h.notMem (hS hm))
    (by rw [hself, hprocs₁]; exact h.parent) hcur
    (by rw [hself, hprocs₁]; exact h.cptr)
    (by rw [hpid₂]; exact ⟨hone, hmax⟩)
    (fun q hq => by
      rw [hpid₂, hf₂.procs q (hS (.inr hq)), hprocs₁]
      exact hfresh q hq)
    (by rw [hlast₂, hpid₂]) (hlive₂ (Set.mem_insert proc _)) hlinks
  have hbody₄ : ∀ q, body s₄ q = body s₂ q := fun q => congrFun hbody q
  have hstate₄ : (s₄.procs proc).state = .uninit := by
    have hbs : (s₄.procs proc).state = (s₂.procs proc).state :=
      congrArg Body.state (hbody₄ proc)
    rw [hbs, hself, hprocs₁]
    exact h.state
  have hpid₄ : (s₄.procs proc).pid = pid :=
    (congrArg Body.pid (hbody₄ proc)).trans hpid₂
  have htouch := (wakeupProc_spec (by rw [hstate₄]; rintro ⟨⟩) hwake).1
  have hbself : body s' proc = (body s₄ proc).wake := by
    rw [htouch.body, Function.update_self]
  have hlive' : S ⊆ A.live s'.mem := by
    rw [htouch.mem, hmem]
    exact fun q hq => hlive₂ (Set.mem_insert_of_mem proc hq)
  refine .child proc _ h.notMem hlive' (hjoin.wake htouch) (fun q hq => ?_)
    (congrArg Body.state hbself) (congrArg Body.waitState hbself)
    ((congrArg Body.pid hbself).trans hpid₄) ?_
  · have hqp : q ≠ proc := fun heq => h.notMem (heq ▸ hS hq)
    rw [htouch.body, Function.update_of_ne hqp, hbody₄, hf₂.body (hS hq)]
    have hb₁ : body s₁ q = body t q := by
      unfold body
      rw [hprocs₁]
    rw [hb₁]
    exact h.frame.body (hS hq)
  · have h₁ : s₂.initproc = t.initproc := by rw [hs₂, hs₁]; rfl
    rw [htouch.vars.initproc, hvars.initproc, h₁]
    exact h.frame.vars.initproc

/-- `do_fork` from the second `alloc_proc` on. -/
theorem doForkWith_spec {ret : Int} {flags : BitVec 32} (h : Tables s R ∅)
    (hcur : current ∈ R.members) (hS : R.members ⊆ S) (hnew : proc ∉ S)
    (hlive : insert proc S ⊆ A.live s.mem)
    (hstate : (s.procs proc).state = .uninit)
    (hws : (s.procs proc).waitState = 0) (hcptr : (s.procs proc).cptr = none)
    (hcall : doForkWith fuel current flags proc s = some (ret, s')) :
    Forked s s' R S current ret := by
  simp only [doForkWith, Process.update, Call.bind_eq_some,
    Call.modify_eq_some, Call.get_eq_some, Call.assert_eq_some] at hcall
  obtain ⟨-, s₁, hs₁, s₂, s₃, ⟨rfl, rfl⟩, u₁, s₄, ⟨hassert, rfl⟩, u₂, s₅,
    rfl, hcall⟩ := hcall
  have hself : s₄.procs proc = { s.procs proc with parent := some current } :=
    by rw [hs₁, update_procs, if_pos rfl]
  have hn : Nascent s s₄ S proc current := by
    refine ⟨?_, hnew, ?_, ?_, ?_, ?_, ?_⟩
    · rw [hs₁]
      exact (Frame.refl _ s).update hnew _
    · rw [hs₁]
      exact hlive
    all_goals
      rw [hself]
      try assumption
  have hn₁ := hn.setMem (A.setupKstack_live s₄.mem)
  cases hk : (A.setupKstack s₄.mem).1 with
  | none =>
      rw [hk] at hcall
      simp only [Call.bind_eq_some, Call.modify_eq_some,
        Call.pure_eq_some] at hcall
      obtain ⟨-, s₇, rfl, hret, rfl⟩ := hcall
      rw [hret]
      have hfree := hn₁.free rfl
      exact .failed (by decide) (hfree.1.mono hS) hfree.2
  | some kstack =>
      rw [hk] at hcall
      simp only [Call.bind_eq_some, Call.modify_eq_some, Call.get_eq_some,
        Call.ofOption_eq_some] at hcall
      obtain ⟨-, s₅, hs₅, s₆, s₇, ⟨rfl, rfl⟩, r, s₈, ⟨hcopy, rfl⟩, -, s₉, hs₉,
        hcall⟩ := hcall
      have hn₂ : Nascent s s₈ S proc current := by
        rw [hs₅]
        exact hn₁.update (by simp)
      have hlive₂ : A.live r.2 = A.live s₈.mem := A.copyMm_live hcopy
      have hn₃ : Nascent s s₉ S proc current := by
        rw [hs₉]
        exact hn₂.setMem hlive₂
      split at hcall
      case isTrue =>
          simp only [Call.bind_eq_some, Call.modify_eq_some, hashProc,
            Call.pure_eq_some] at hcall
          obtain ⟨-, s₁₀, hs₁₀, pid, s₁₁, hpid, -, s₁₂, hs₁₂, -, s₁₃, hs₁₃, u₃,
            s₁₄, hlinks, u₄, s₁₅, hwake, rfl, rfl⟩ := hcall
          have hn₄ : Nascent s s₁₀ S proc current := by
            rw [hs₁₀]
            exact hn₃.update (by simp)
          exact hn₄.join hS h hcur hpid hs₁₂ hs₁₃ hlinks hwake
      case isFalse =>
          simp only [Call.bind_eq_some, Call.modify_eq_some,
            Call.pure_eq_some] at hcall
          obtain ⟨-, s₁₀, rfl, rfl, rfl⟩ := hcall
          have hfree := hn₃.free (A.putKstack_live kstack s₉.mem)
          exact .failed (by decide) (hfree.1.mono hS) hfree.2

/-- What do_fork does. -/
theorem doFork_spec {ret : Int} {flags : BitVec 32} (h : Tables s R ∅)
    (hcur : current ∈ R.members) (hS : R.members ⊆ S)
    (hSl : S ⊆ A.live s.mem)
    (hcall : doFork fuel current flags s = some (ret, s')) :
    Forked s s' R S current ret := by
  simp only [doFork, Call.bind_eq_some, Call.get_eq_some] at hcall
  obtain ⟨s₁, s₂, ⟨rfl, rfl⟩, hcall⟩ := hcall
  split at hcall
  case isTrue =>
      rw [Call.pure_eq_some] at hcall
      rw [hcall.1, hcall.2]
      exact .failed (by decide) (.refl _ _) hSl
  case isFalse =>
      simp only [Call.bind_eq_some, Call.ofOption_eq_some] at hcall
      obtain ⟨o, s₃, hfirst, p, s₄, ⟨-, rfl⟩, o', s₅, hsecond, proc, s₆,
        ⟨hproc, rfl⟩, hwith⟩ := hcall
      obtain ⟨hf₁, hl₁, -⟩ := allocProc_spec hSl hfirst
      obtain ⟨hf₂, hl₂, hnew⟩ := allocProc_spec hl₁ hsecond
      obtain ⟨hnot, hlive, hstate, hws, hcptr⟩ := hnew proc hproc
      have hf := hf₁.trans hf₂
      have htab := h.congr (hf.mono hS).sameTables (hS.trans hl₂)
      exact (doForkWith_spec htab hcur hS hnot
        (Set.insert_subset hlive hl₂) hstate hws hcptr hwith).of_frame
        (hf.mono hS)

/-- A do_fork below the limit of processes leaves a new block allocated
that is not the child's: the first of its two calls of `alloc_proc`. -/
theorem doFork_leaks {ret : Int} {flags : BitVec 32} (h : Tables s R ∅)
    (hcur : current ∈ R.members) (hmax : s.nrProcess < maxProcess)
    (hcall : doFork fuel current flags s = some (ret, s')) :
    ∃ block, block ∉ A.live s.mem
      ∧ Forked s s' R (insert block (A.live s.mem)) current ret := by
  simp only [doFork, Call.bind_eq_some, Call.get_eq_some] at hcall
  obtain ⟨s₁, s₂, ⟨rfl, rfl⟩, hcall⟩ := hcall
  rw [if_neg (by omega)] at hcall
  simp only [Call.bind_eq_some, Call.ofOption_eq_some] at hcall
  obtain ⟨o, s₃, hfirst, block, s₄, ⟨ho, rfl⟩, o', s₅, hsecond, proc, s₆,
    ⟨hproc, rfl⟩, hwith⟩ := hcall
  obtain ⟨hf₁, hl₁, hblock⟩ := allocProc_spec (le_refl _) hfirst
  obtain ⟨hbnot, hblive, -⟩ := hblock block ho
  have hl₁' : insert block (A.live s₂.mem) ⊆ A.live s₄.mem :=
    Set.insert_subset hblive hl₁
  obtain ⟨hf₂, hl₂, hnew⟩ := allocProc_spec hl₁' hsecond
  obtain ⟨hnot, hlive, hstate, hws, hcptr⟩ := hnew proc hproc
  have hS : R.members ⊆ insert block (A.live s₂.mem) := fun q hq =>
    Set.mem_insert_of_mem block (h.live q hq)
  have hf := (hf₁.mono h.live).trans (hf₂.mono hS)
  have htab := h.congr hf.sameTables (hS.trans hl₂)
  exact ⟨block, hbnot, (doForkWith_spec htab hcur hS hnot
    (Set.insert_subset hlive hl₂) hstate hws hcptr hwith).of_frame hf⟩

-- =========================================================== do_exit

/-- The process `current`, a child of `parent`, exits: it is a zombie with
its code, and its children are `init`'s. Others are as they were, or woken;
`parent` is if it waits, and so is `init` if it waits and gets a zombie. -/
structure Exited (s s' : State A) (R : Roster ν)
    (current parent init : ν) (code : Int) : Prop where
  tables : Tables s' (R.reparent current init) ∅
  self : body s' current
    = { body s current with mm := none, state := .zombie, exitCode := code }
  other : ∀ q, q ≠ current → MayWake (body s q) (body s' q)
  parent : (s'.procs parent).waitState ≠ wtChild
  adopted : (s'.procs init).waitState = wtChild →
    ∀ c ∈ R.children current, c ≠ current → (s.procs c).state ≠ .zombie
  initproc : s'.initproc = s.initproc
  live : A.live s'.mem = A.live s.mem

/-- A process that exits, before its parent is told: only it and the
memory have changed. -/
structure Gone (s t : State A) (current : ν) (code : Int) : Prop where
  kin : kin t = kin s
  links : t.links = s.links
  nrProcess : t.nrProcess = s.nrProcess
  vars : SameVars s t
  body : body t = Function.update (body s) current
    { body s current with mm := none, state := .zombie, exitCode := code }
  live : A.live t.mem = A.live s.mem

theorem gone_update (hmm : (s.procs current).mm = none) :
    Gone s (s.update current fun q =>
      { q with state := .zombie, exitCode := code }) current code := by
  refine ⟨kin_update _ _ rfl rfl rfl rfl, rfl, rfl, update_sameVars _ _ _, ?_,
    rfl⟩
  funext q
  rw [Function.update_apply]
  split
  case isTrue hq =>
      rw [hq, body_update_self]
      show (Body.mk _ _ _ (s.procs current).mm _ _ _ : Body A.Mm) = _
      rw [hmm]
      rfl
  case isFalse hq => exact body_update_of_ne _ _ _ hq

/-- Letting the mm go before changes nothing else. -/
theorem Gone.of_exitMm
    (hlive : A.live mem = A.live s.mem)
    (h : Gone ({ s with mem }.update current fun q => { q with mm := none }) t
      current code) : Gone s t current code := by
  have hkin : Process.kin ({ s with mem }.update current fun q =>
      { q with mm := none }) = Process.kin s :=
    kin_update _ _ rfl rfl rfl rfl
  refine ⟨h.kin.trans hkin, h.links, h.nrProcess, ⟨h.vars.lastPid,
    h.vars.nextSafe, h.vars.idleproc, h.vars.initproc⟩, ?_,
    h.live.trans hlive⟩
  rw [h.body]
  funext q
  rw [Function.update_apply, Function.update_apply]
  split
  case isTrue hq => rw [body_update_self]; rfl
  case isFalse hq => exact body_update_of_ne _ _ _ hq

/-- The end of do_exit, once the process is a zombie. -/
theorem Gone.exited {parent : ν} (hg : Gone s t current code)
    (h : Tables s R ∅)
    (hcur : current ∈ R.procs) (hinit : s.initproc = some init)
    (himem : init ∈ R.procs) (hne : current ≠ init)
    (hpmem : parent ∈ R.members)
    (hws : (s.procs current).waitState = 0)
    (hrun : ∀ p ∈ R.members, (s.procs p).state = .runnable →
      (s.procs p).waitState = 0)
    (hinitp : init ∈ R.children R.idle)
    (hcall : (if (t.procs parent).waitState = wtChild then do
        wakeupProc parent
        Process.reparent current fuel
      else Process.reparent current fuel : ProcM A Unit) t
        = some (x, s')) :
    Exited s s' R current parent init code := by
  have hbt : ∀ q, q ≠ current → Process.body t q = Process.body s q := by
    intro q hq
    rw [hg.body, Function.update_of_ne hq]
  have hself : Process.body t current = { Process.body s current with
      mm := none, state := .zombie, exitCode := code } := by
    rw [hg.body, Function.update_self]
  have hwst : (t.procs current).waitState = 0 :=
    (congrArg Body.waitState hself).trans hws
  have htab : Tables t R {current} := by
    refine ({ h with family := h.family.loosen _ } :
      Tables s R {current}).congr ?_ ?_
    · refine ⟨hg.links, hg.nrProcess, hg.vars.lastPid, hg.vars.nextSafe,
        hg.vars.idleproc, fun p _ => ?_, ?_, ?_, ?_, ?_⟩
      · by_cases hp : p = current
        · rw [hp]
          exact congrArg Body.pid hself
        · exact congrArg Body.pid (hbt p hp)
      all_goals
        intro p _
        rw [hg.kin]
    · intro p hp
      rw [hg.live]
      exact h.live p hp
  have hnot : ∀ c ∈ R.children current, c ≠ init := by
    intro c hc heq
    rw [heq] at hc
    have huniq := h.family.parent_unique (.inr hcur) R.idle_mem hc hinitp
    exact h.idle_notMem (huniq ▸ hcur)
  have hrunt : ∀ p ∈ R.members, p ≠ current → (t.procs p).state = .runnable →
      (t.procs p).waitState = 0 := by
    intro p hp hpc hstate
    have hwsp : (t.procs p).waitState = (s.procs p).waitState :=
      congrArg Body.waitState (hbt p hpc)
    rw [hwsp]
    exact hrun p hp ((congrArg Body.state (hbt p hpc)).symm.trans hstate)
  -- the loop, from a state in which the parent may be woken
  have hgo : ∀ v, Tables v R {current} → SameVars t v →
      (∀ q, MayWake (Process.body t q) (Process.body v q)) →
      v.mem = t.mem → (v.procs parent).waitState ≠ wtChild →
      Process.body v current = Process.body t current →
      ((v.procs init).state = .runnable → (v.procs init).waitState = 0) →
      Process.reparent current fuel v = some (x, s') →
      Exited s s' R current parent init code := by
    intro v hv hvars hmay hvmem hpar hvself hvrun hloop
    have hinitv : v.initproc = some init :=
      (hvars.initproc.trans hg.vars.initproc).trans hinit
    obtain ⟨htab', hw⟩ := hv.reparent (.inr hcur) hinitv (.inr himem)
      (Ne.symm hne) hnot hvrun hloop
    have hall : ∀ q, MayWake (Process.body v q) (Process.body s' q) := by
      intro q
      by_cases hq : q = init
      · rw [hq]
        exact hw.woken
      · exact .inl (hw.other q hq)
    refine ⟨htab', ?_, fun q hq => ?_, fun hwsp => hpar ?_,
      fun hwsi c hc hcc hz => ?_, ?_, ?_⟩
    · rw [hw.other current hne, hvself, hself]
    · rw [← hbt q hq]
      exact (hmay q).trans (hall q)
    · have hsame := (hall parent).same hwsp
      exact (congrArg Body.waitState hsame).symm.trans hwsp
    · have hcz : (Process.body v c).state ≠ .zombie := hw.asked hwsi c hc
      rcases hmay c with hsame | hwoke
      · rw [hsame, hbt c hcc] at hcz
        exact hcz hz
      · rw [hbt c hcc] at hwoke
        exact hwoke.2 hz
    · exact (hw.vars.initproc.trans hinitv).trans hinit.symm
    · rw [hw.mem, hvmem]
      exact hg.live
  split at hcall
  case isTrue hwsp =>
      rw [Call.bind_eq_some] at hcall
      obtain ⟨u, v, hwake, hloop⟩ := hcall
      have hpc : parent ≠ current := by
        intro heq
        rw [heq, hwst] at hwsp
        exact absurd hwsp (by decide)
      obtain ⟨ht, hz⟩ := wakeupProc_spec (hrunt parent hpmem hpc) hwake
      have hvp : Process.body v parent = (Process.body t parent).wake := by
        rw [ht.body, Function.update_self]
      have hvq : ∀ q, q ≠ parent → Process.body v q = Process.body t q := by
        intro q hq
        rw [ht.body, Function.update_of_ne hq]
      have hzero : (v.procs parent).waitState = 0 :=
        congrArg Body.waitState hvp
      refine hgo v (htab.wake ht) ht.vars (fun q => ?_) ht.mem ?_
        (hvq current (Ne.symm hpc)) ?_ hloop
      · by_cases hq : q = parent
        · rw [hq]
          exact .inr ⟨hvp, hz⟩
        · exact .inl (hvq q hq)
      · rw [hzero]
        decide
      · intro hstate
        by_cases hq : init = parent
        · rw [hq]
          exact hzero
        · have hwsi : (v.procs init).waitState = (t.procs init).waitState :=
            congrArg Body.waitState (hvq init hq)
          rw [hwsi]
          exact hrunt init (.inr himem) (Ne.symm hne)
            ((congrArg Body.state (hvq init hq)).symm.trans hstate)
  case isFalse hwsp =>
      exact hgo t htab (.refl t) (fun q => .refl _) rfl hwsp rfl
        (hrunt init (.inr himem) (Ne.symm hne)) hcall

/-- What do_exit does. -/
theorem doExit_spec {parent : ν} (h : Tables s R ∅)
    (hcur : current ∈ R.procs) (hinit : s.initproc = some init)
    (himem : init ∈ R.procs) (hparent : current ∈ R.children parent)
    (hpmem : parent ∈ R.members)
    (hws : (s.procs current).waitState = 0)
    (hrun : ∀ p ∈ R.members, (s.procs p).state = .runnable →
      (s.procs p).waitState = 0)
    (hinitp : init ∈ R.children R.idle)
    (hcall : doExit fuel current code s = some (x, s')) :
    current ≠ init ∧ Exited s s' R current parent init code := by
  simp only [doExit, Call.bind_eq_some, Call.get_eq_some,
    Call.assert_eq_some] at hcall
  obtain ⟨s₁, s₂, ⟨rfl, rfl⟩, u, s₃, ⟨hidle, rfl⟩, u', s₄, ⟨hne, rfl⟩,
    hcall⟩ := hcall
  have hne' : current ≠ init := by
    intro heq
    rw [hinit, heq] at hne
    exact hne rfl
  have hkinp : (kin s₄).parent current = some parent :=
    (h.family.child parent hpmem current hparent).2.2
  refine ⟨hne', ?_⟩
  have hgo : ∀ t proc, Gone s₄ t current code →
      (t.procs current).parent = some proc →
      (if (t.procs proc).waitState = wtChild then do
          wakeupProc proc
          Process.reparent current fuel
        else Process.reparent current fuel : ProcM A Unit) t
          = some (x, s') →
      Exited s₄ s' R current parent init code := by
    intro t proc hg hproc htail
    have hkt : (kin t).parent current = some proc := hproc
    rw [hg.kin, hkinp, Option.some.injEq] at hkt
    rw [← hkt] at htail
    exact hg.exited h hcur hinit himem hne' hpmem hws hrun hinitp htail
  cases hmm : (s₄.procs current).mm with
  | none =>
      rw [hmm] at hcall
      simp only [Process.update, Call.bind_eq_some, Call.modify_eq_some,
        Call.get_eq_some, Call.ofOption_eq_some] at hcall
      obtain ⟨-, s₅, hs₅, s₆, s₇, ⟨rfl, rfl⟩, proc, s₈, ⟨hproc, rfl⟩,
        htail⟩ := hcall
      refine hgo s₈ proc ?_ hproc htail
      rw [hs₅]
      exact gone_update hmm
  | some mm =>
      rw [hmm] at hcall
      simp only [Process.update, Call.bind_eq_some, Call.modify_eq_some,
        Call.get_eq_some, Call.ofOption_eq_some] at hcall
      obtain ⟨mem, s₅, ⟨hexit, rfl⟩, -, s₆, rfl, -, s₇, rfl, -, s₈, hs₈, s₉,
        s₁₀, ⟨rfl, rfl⟩, proc, s₁₁, ⟨hproc, rfl⟩, htail⟩ := hcall
      refine hgo s₁₁ proc ?_ hproc htail
      rw [hs₈]
      refine Gone.of_exitMm (A.exitMm_live hexit) (gone_update ?_)
      rw [update_procs, if_pos rfl]

-- =========================================================== do_wait

/-- The children that do_wait with this argument waits for. -/
def Awaited (s : State A) (pid : Int) (c : ν) : Prop :=
  pid = 0 ∨ (s.procs c).pid = pid

/-- The loop of `do_wait` over the rest of the children. -/
theorem waitLoop_spec {cs : List ν} {o : Option ν} {has : Bool}
    {found : Option ν} (holder : Older (kin s) cs none) (ho : o = cs.head?)
    (hcall : waitLoop s fuel o = some (has, found)) :
    (∀ c, found = some c → c ∈ cs ∧ (s.procs c).state = .zombie)
      ∧ (found = none → ∀ c ∈ cs, (s.procs c).state ≠ .zombie) := by
  induction cs generalizing o fuel has with
  | nil =>
      rw [ho, List.head?_nil] at hcall
      have hnone : found = none := by
        cases fuel with
        | zero => cases hcall; rfl
        | succ fuel => cases hcall; rfl
      rw [hnone]
      exact ⟨(fun _ h => by cases h), fun _ => (fun _ h => by cases h)⟩
  | cons c cs ih =>
      rw [ho, List.head?_cons] at hcall
      cases fuel with
      | zero => cases hcall
      | succ fuel =>
          rw [waitLoop] at hcall
          split at hcall
          case isTrue hz =>
              cases hcall
              refine ⟨fun d hd => ?_, fun h => by cases h⟩
              rw [← Option.some.inj hd]
              exact ⟨List.mem_cons_self, hz⟩
          case isFalse hz =>
              have hopt : (s.procs c).optr = cs.head? := by
                have hc : (kin s).optr c = cs.head?.or none := holder.1
                rw [Option.or_none] at hc
                exact hc
              split at hcall
              case h_1 => cases hcall
              case h_2 b found' hrest =>
                  cases hcall
                  obtain ⟨hsome, hnone⟩ := ih holder.2 hopt hrest
                  refine ⟨fun d hd => ?_, fun heq d hd => ?_⟩
                  · exact ⟨List.mem_cons_of_mem c (hsome d hd).1,
                      (hsome d hd).2⟩
                  · rcases List.mem_cons.1 hd with rfl | hd
                    · exact hz
                    · exact hnone heq d hd

/-- What `do_wait` finds. -/
theorem waitScan_spec {has : Bool} {found : Option ν} (h : Tables s R ∅)
    (hcur : current ∈ R.members)
    (hcall : waitScan fuel current pid s = some ((has, found), s')) :
    s' = s
      ∧ (∀ c, found = some c → c ∈ R.children current
        ∧ (s.procs c).state = .zombie ∧ Awaited s pid c)
      ∧ (found = none → ∀ c ∈ R.children current, Awaited s pid c →
        (s.procs c).state ≠ .zombie) := by
  unfold waitScan at hcall
  split at hcall
  case isTrue hne =>
      simp only [Call.bind_eq_some, Call.get_eq_some] at hcall
      obtain ⟨r, s₁, hfind, s₂, s₃, ⟨rfl, rfl⟩, hcall⟩ := hcall
      obtain ⟨rfl, hfound⟩ := h.findProc hfind
      -- a child with the pid is the process found
      have hchild : ∀ c ∈ R.children current, Awaited s₃ pid c →
          r = some c := by
        intro c hc haw
        have hpidc : (s₃.procs c).pid = pid :=
          haw.resolve_left hne
        obtain ⟨hcm, hcroot, -⟩ := h.family.child current hcur c hc
        have hcp : c ∈ R.procs := hcm.resolve_left hcroot
        cases r with
        | none => exact absurd hpidc (hfound.2 rfl c hcp)
        | some d =>
            obtain ⟨hd, hpidd⟩ := hfound.1 d rfl
            rw [h.pid_inj d hd c hcp (hpidd.trans hpidc.symm)]
      cases r with
      | none =>
          rw [Call.pure_eq_some] at hcall
          obtain ⟨heq, rfl⟩ := hcall
          cases heq
          exact ⟨rfl, (fun _ h => by cases h),
            fun _ c hc haw => by cases hchild c hc haw⟩
      | some proc =>
          obtain ⟨hproc, hpid⟩ := hfound.1 proc rfl
          have hroot : proc ≠ R.idle := fun heq => h.idle_notMem (heq ▸ hproc)
          dsimp only at hcall
          split at hcall
          case isTrue hpar =>
              have hmem : proc ∈ R.children current :=
                (h.family.mem_children (.inr hproc) hroot hpar).2
              split at hcall
              case isTrue hz =>
                  rw [Call.pure_eq_some] at hcall
                  obtain ⟨heq, rfl⟩ := hcall
                  cases heq
                  refine ⟨rfl, fun c hc => ?_, fun h => by cases h⟩
                  rw [← Option.some.inj hc]
                  exact ⟨hmem, hz, .inr hpid⟩
              case isFalse hz =>
                  rw [Call.pure_eq_some] at hcall
                  obtain ⟨heq, rfl⟩ := hcall
                  cases heq
                  refine ⟨rfl, (fun _ h => by cases h), fun _ c hc haw => ?_⟩
                  rw [← Option.some.inj (hchild c hc haw)]
                  exact hz
          case isFalse hpar =>
              rw [Call.pure_eq_some] at hcall
              obtain ⟨heq, rfl⟩ := hcall
              cases heq
              refine ⟨rfl, (fun _ h => by cases h), fun _ c hc haw => ?_⟩
              have hpc := (h.family.child current hcur c hc).2.2
              rw [← Option.some.inj (hchild c hc haw)] at hpc
              exact absurd hpc hpar
  case isFalse heq =>
      simp only [Call.bind_eq_some, Call.get_eq_some,
        Call.ofOption_eq_some] at hcall
      obtain ⟨s₁, s₂, ⟨rfl, rfl⟩, hloop, rfl⟩ := hcall
      have hhead := h.family.head current hcur
      obtain ⟨hsome, hnone⟩ := waitLoop_spec (h.family.older current hcur)
        hhead hloop
      exact ⟨rfl, fun c hc => ⟨(hsome c hc).1, (hsome c hc).2,
        .inl (not_not.1 heq)⟩, fun hn c hc _ => hnone hn c hc⟩

/-- What a stretch of do_wait does. -/
inductive WaitSpec (s s' : State A) (R : Roster ν) (current : ν) (pid : Int)
    (codeStore : Option Nat) : Waited ν → Prop
  | reaped (proc : ν) (i : BitVec 32) (hchild : proc ∈ R.children current)
      (hz : (s.procs proc).state = .zombie) (haw : Awaited s pid proc)
      (hidle : some proc ≠ s.idleproc) (hinit : some proc ≠ s.initproc)
      (htables : Tables s' (R.part proc current i) ∅)
      (hbody : body s' = body s) (hvar : s'.initproc = s.initproc)
      (hlive : A.live s'.mem = A.live s.mem \ {proc}) :
      WaitSpec s s' R current pid codeStore
        (.reaped proc (codeStore.map fun _ => (s.procs proc).exitCode))
  | badProc (hsame : s' = s) : WaitSpec s s' R current pid codeStore .badProc
  | inval (hsame : s' = s) : WaitSpec s s' R current pid codeStore .inval
  | slept (hnone : ∀ c ∈ R.children current, Awaited s pid c →
        (s.procs c).state ≠ .zombie)
      (htables : Tables s' R ∅)
      (hbody : body s' = Function.update (body s) current
        { body s current with state := .sleeping, waitState := wtChild })
      (hvar : s'.initproc = s.initproc) (hmem : s'.mem = s.mem) :
      WaitSpec s s' R current pid codeStore .slept

/-- `do_wait` from `found` on. -/
theorem waitFound_spec {codeStore : Option Nat} {r : Waited ν}
    (h : Tables s R ∅) (hcur : current ∈ R.members)
    (hchild : proc ∈ R.children current)
    (hz : (s.procs proc).state = .zombie) (haw : Awaited s pid proc)
    (hempty : R.children proc = [])
    (hcall : waitFound current codeStore proc s = some (r, s')) :
    WaitSpec s s' R current pid codeStore r := by
  simp only [waitFound, Call.bind_eq_some, Call.get_eq_some,
    Call.assert_eq_some] at hcall
  obtain ⟨s₁, s₂, ⟨rfl, rfl⟩, u, s₃, ⟨hne, rfl⟩, hcall⟩ := hcall
  obtain ⟨hcm, hcroot, -⟩ := h.family.child current hcur proc hchild
  have hproc : proc ∈ R.procs := hcm.resolve_left hcroot
  -- the store of the code, if any, and then the rest
  have hgo : ∀ mem, A.live mem = A.live s₃.mem →
      ∀ t, removeLinks proc ({ s₃ with mem }.setLinks
        (listDel s₃.links (.hashLink proc))) = some ((), t) →
      WaitSpec s₃ { t with
          mem := A.kfree proc (A.putKstack (t.procs proc).kstack t.mem) }
        R current pid codeStore
        (.reaped proc (codeStore.map fun _ => (s₃.procs proc).exitCode)) := by
    intro mem hlive t hlinks
    have htab : Tables { s₃ with mem } R ∅ := by
      refine h.congr ((Frame.refl R.members s₃).setMem mem).sameTables ?_
      intro p hp
      show p ∈ A.live mem
      rw [hlive]
      exact h.live p hp
    obtain ⟨hpart, hbody, hmem, hvars⟩ :=
      htab.part hproc hcur hchild hempty hlinks
    have hlinit : t.initproc = s₃.initproc := hvars.initproc
    refine .reaped proc (pidHashfn (s₃.procs proc).pid) hchild hz haw hne.1
      hne.2 ?_ hbody hlinit ?_
    case refine_2 =>
        show A.live (A.kfree proc _) = _
        rw [A.kfree_live, A.putKstack_live, hmem, hlive]
    refine hpart.congr ((Frame.refl _ t).setMem _).sameTables ?_
    intro p hp
    have hpne : p ≠ proc := by
      rw [htab.part_members hproc] at hp
      exact hp.2
    show p ∈ A.live (A.kfree proc _)
    rw [A.kfree_live, A.putKstack_live]
    exact ⟨hpart.live p hp, hpne⟩
  cases codeStore with
  | none =>
      simp only [unhashProc, Call.bind_eq_some, Call.modify_eq_some,
        Call.pure_eq_some] at hcall
      obtain ⟨-, s₄, rfl, u', s₅, hlinks, -, s₆, rfl, rfl, rfl⟩ := hcall
      exact hgo s₃.mem rfl s₅ hlinks
  | some a =>
      simp only [unhashProc, Call.bind_eq_some, Call.modify_eq_some,
        Call.pure_eq_some] at hcall
      obtain ⟨-, s₄, rfl, -, s₅, rfl, u', s₆, hlinks, -, s₇, rfl, rfl,
        rfl⟩ := hcall
      exact hgo _ (A.storeInt_live _ _ _ _) s₆ hlinks

/-- `do_wait` from `repeat` on. Zombies have no children. -/
theorem waitRepeat_spec {codeStore : Option Nat} {r : Waited ν}
    (h : Tables s R ∅) (hcur : current ∈ R.members)
    (hempty : ∀ c ∈ R.members, (s.procs c).state = .zombie →
      R.children c = [])
    (hcall : waitRepeat fuel current pid codeStore s = some (r, s')) :
    WaitSpec s s' R current pid codeStore r := by
  simp only [waitRepeat, Call.bind_eq_some] at hcall
  obtain ⟨⟨has, found⟩, t, hscan, hcall⟩ := hcall
  obtain ⟨rfl, hsome, hnone⟩ := waitScan_spec h hcur hscan
  cases found with
  | some proc =>
      obtain ⟨hchild, hz, haw⟩ := hsome proc rfl
      have hcm := (h.family.child current hcur proc hchild).1
      exact waitFound_spec h hcur hchild hz haw (hempty proc hcm hz) hcall
  | none =>
      dsimp only at hcall
      split at hcall
      case isTrue =>
          simp only [Process.update, Call.bind_eq_some, Call.modify_eq_some,
            Call.pure_eq_some] at hcall
          obtain ⟨-, s₁, rfl, rfl, rfl⟩ := hcall
          have hkin : kin (t.update current fun q =>
              { q with state := .sleeping, waitState := wtChild }) = kin t :=
            kin_update _ _ rfl rfl rfl rfl
          refine .slept (hnone rfl)
            (h.congr (sameTables_update _ hkin rfl) h.live) ?_ rfl rfl
          funext q
          rw [Function.update_apply]
          split
          case isTrue hq => rw [hq, body_update_self]; rfl
          case isFalse hq => exact body_update_of_ne _ _ _ hq
      case isFalse =>
          rw [Call.pure_eq_some] at hcall
          obtain ⟨rfl, rfl⟩ := hcall
          exact .badProc rfl

/-- `do_wait` up to the first call of `schedule`. -/
theorem doWait_spec {codeStore : Option Nat} {r : Waited ν}
    (h : Tables s R ∅) (hcur : current ∈ R.members)
    (hempty : ∀ c ∈ R.members, (s.procs c).state = .zombie →
      R.children c = [])
    (hcall : doWait fuel current pid codeStore s = some (r, s')) :
    WaitSpec s s' R current pid codeStore r := by
  simp only [doWait, Call.bind_eq_some, Call.get_eq_some] at hcall
  obtain ⟨s₁, s₂, ⟨rfl, rfl⟩, hcall⟩ := hcall
  cases codeStore with
  | none => exact waitRepeat_spec h hcur hempty hcall
  | some a =>
      dsimp only at hcall
      split at hcall
      case isTrue => exact waitRepeat_spec h hcur hempty hcall
      case isFalse =>
          rw [Call.pure_eq_some] at hcall
          obtain ⟨rfl, rfl⟩ := hcall
          exact .inval rfl

-- =========================================================== do_kill

/-- `do_kill` marks a process, and wakes it if it waits. -/
theorem doKill_spec {ret : Int} (h : Tables s R ∅)
    (hrun : ∀ p ∈ R.members, (s.procs p).state = .runnable →
      (s.procs p).waitState = 0)
    (hcall : doKill fuel pid s = some (ret, s')) :
    Tables s' R ∅ ∧ s'.initproc = s.initproc ∧ s'.mem = s.mem
      ∧ ∀ q, MayWake { body s q with exiting := (s'.procs q).exiting }
        (body s' q) := by
  simp only [doKill, Call.bind_eq_some] at hcall
  obtain ⟨r, t, hfind, hcall⟩ := hcall
  obtain ⟨rfl, hfound⟩ := h.findProc hfind
  cases r with
  | none =>
      rw [Call.pure_eq_some] at hcall
      obtain ⟨rfl, rfl⟩ := hcall
      exact ⟨h, rfl, rfl, fun q => .refl _⟩
  | some proc =>
      have hproc := (hfound.1 proc rfl).1
      simp only [Call.bind_eq_some, Call.get_eq_some] at hcall
      obtain ⟨s₁, s₂, ⟨rfl, rfl⟩, hcall⟩ := hcall
      split at hcall
      case isTrue =>
          rw [Call.pure_eq_some] at hcall
          obtain ⟨rfl, rfl⟩ := hcall
          exact ⟨h, rfl, rfl, fun q => .refl _⟩
      case isFalse =>
          rw [Call.bind_eq_some] at hcall
          obtain ⟨u, s₃, hmark, hcall⟩ := hcall
          rw [Process.update, Call.modify_eq_some] at hmark
          have hkin : kin s₃ = kin s₂ := by
            rw [hmark]
            exact kin_update _ _ rfl rfl rfl rfl
          have htab : Tables s₃ R ∅ := by
            rw [hmark] at hkin ⊢
            exact h.congr (sameTables_update _ hkin rfl) h.live
          have hself : body s₃ proc = { body s₂ proc with exiting := true } :=
            by rw [hmark, body_update_self]; rfl
          have hother : ∀ q, q ≠ proc → body s₃ q = body s₂ q := by
            intro q hq
            rw [hmark]
            exact body_update_of_ne _ _ _ hq
          have hmay : ∀ q, body s₃ q
              = { body s₂ q with exiting := (s₃.procs q).exiting } := by
            intro q
            by_cases hq : q = proc
            · have hex : (s₃.procs proc).exiting = true :=
                congrArg Body.exiting hself
              rw [hq, hself, hex]
            · have hex : (s₃.procs q).exiting = (s₂.procs q).exiting :=
                congrArg Body.exiting (hother q hq)
              rw [hother q hq, hex]
              rfl
          have hvar : s₃.initproc = s₂.initproc ∧ s₃.mem = s₂.mem := by
            rw [hmark]
            exact ⟨rfl, rfl⟩
          split at hcall
          case isTrue =>
              simp only [Call.bind_eq_some, Call.pure_eq_some] at hcall
              obtain ⟨u', s₄, hwake, rfl, rfl⟩ := hcall
              have hrun₃ : (s₃.procs proc).state = .runnable →
                  (s₃.procs proc).waitState = 0 := by
                intro hstate
                have hst : (s₃.procs proc).state = (s₂.procs proc).state :=
                  congrArg Body.state hself
                have hws : (s₃.procs proc).waitState
                    = (s₂.procs proc).waitState :=
                  congrArg Body.waitState hself
                rw [hws]
                exact hrun proc (.inr hproc) (hst.symm.trans hstate)
              obtain ⟨ht, hz⟩ := wakeupProc_spec hrun₃ hwake
              refine ⟨htab.wake ht, ht.vars.initproc.trans hvar.1,
                ht.mem.trans hvar.2, fun q => ?_⟩
              by_cases hq : q = proc
              · have hb : body s' proc = (body s₃ proc).wake := by
                  rw [ht.body, Function.update_self]
                have hex : (s'.procs proc).exiting
                    = (s₃.procs proc).exiting := congrArg Body.exiting hb
                rw [hq, hex, ← hmay proc]
                exact .inr ⟨hb, hz⟩
              · have hb : body s' q = body s₃ q := by
                  rw [ht.body, Function.update_of_ne hq]
                have hex : (s'.procs q).exiting = (s₃.procs q).exiting :=
                  congrArg Body.exiting hb
                rw [hex, ← hmay q]
                exact .inl hb
          case isFalse =>
              rw [Call.pure_eq_some] at hcall
              obtain ⟨rfl, rfl⟩ := hcall
              exact ⟨htab, hvar.1, hvar.2, fun q => .inl (hmay q)⟩

end Ucore.Process
