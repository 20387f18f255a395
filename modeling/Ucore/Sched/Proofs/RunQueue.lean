/-
In every state of a run of lab6 the run pool holds just the RUNNABLE processes
but idle and the current one.

A step of lab6 is a step of lab5 on the tables, or leaves them alone but for a
wakeup; so the tables are consistent, and they tell which processes there are.
-/
import Ucore.Sched.Proofs.RunPool

namespace Ucore.Schedule

open Ring Call Process SkewHeap

variable {ν : Type} [DecidableEq ν] {A : Memory ν} {w w' : World A}
  {k k' : Kernel A} {s s' : State A} {R R' : Roster ν} {M : Set ν}
  {init p q c proc : ν} {i : Option ν} {fuel : Nat} {u : Unit}
  {l : Label ν} {ls : List (Label ν)} {loose loose' : Set ν}

/-- What lab5 sees of a state. -/
def World.plain (w : World A) : Process.World A :=
  ⟨w.kernel.tables, w.waits⟩

/-- What holds in every state of a run. -/
structure Sound (w : World A) (R : Roster ν) (init : ν) : Prop where
  tables : Inv w.plain R init
  queued : Queued w.kernel R.members
  current : w.kernel.current ∈ R.members
  running : w.leaving = false →
    (w.kernel.tables.procs w.kernel.current).state = .runnable
  idle : (w.kernel.tables.procs R.idle).state = .runnable
  noWait : w.waits R.idle = none
  few : w.kernel.tables.nrProcess ≤ maxProcess

namespace Sound

theorem idleproc (h : Sound w R init) :
    w.kernel.tables.idleproc = some R.idle := h.tables.tables.idleproc

theorem initproc (h : Sound w R init) :
    w.kernel.tables.initproc = some init := h.tables.initproc

/-- What the side by side proofs start from. -/
theorem beside (h : Sound w R init) :
    Beside R.members w.kernel.current (some init) (some R.idle) w.kernel
      w.kernel.tables :=
  ⟨rfl, h.queued, rfl, h.initproc, h.idleproc⟩

theorem init_mem (h : Sound w R init) : ∀ q, some init = some q →
    q ∈ R.members := by
  intro q hq
  rw [← Option.some.inj hq]
  exact .inr h.tables.init_procs

/-- The current process can run. -/
theorem runs (h : Sound w R init) (hleaving : w.leaving = false) :
    Runs w.plain.kernel w.kernel.current := by
  refine ⟨?_, h.running hleaving⟩
  rcases h.current with hidle | hproc
  · rw [hidle]
    exact .inl h.idleproc
  · exact .inr (h.tables.listed.2 hproc)

theorem parent_mem (h : Sound w R init)
    (hne : w.kernel.current ≠ R.idle) : ∀ q,
    (w.kernel.tables.procs w.kernel.current).parent = some q →
      q ∈ R.members := by
  intro q hq
  obtain ⟨parent, hpm, hparent⟩ :=
    h.tables.tables.family.parent _ h.current hne
  have hkin :=
    (h.tables.tables.family.child parent hpm _ hparent).2.2
  rw [← Option.some.inj (hkin.symm.trans hq)]
  exact hpm

theorem current_ne (h : Sound w R init) (hfree : Free w) :
    w.kernel.current ≠ R.idle := by
  intro heq
  refine hfree.idle ?_
  rw [heq]
  exact h.idleproc

end Sound

/-- The tables say which processes there are. -/
theorem members_eq (h : Tables s R loose) (h' : Tables s' R' loose')
    (hlinks : s'.links = s.links) (hidle : s'.idleproc = s.idleproc) :
    R'.members = R.members ∧ R'.idle = R.idle := by
  have hroot : R'.idle = R.idle :=
    Option.some.inj (h'.idleproc.symm.trans (hidle.trans h.idleproc))
  have hlist := h'.list
  rw [hlinks] at hlist
  have heq := hlist.unique h.list
  have hprocs : ∀ p, p ∈ R'.procs ↔ p ∈ R.procs := by
    intro p
    have hmem : (.listLink p : Entry ν) ∈ R'.procs.map .listLink
        ↔ (.listLink p : Entry ν) ∈ R.procs.map .listLink := by rw [heq]
    rw [List.mem_map_of_injective fun _ _ => Entry.listLink.inj,
      List.mem_map_of_injective fun _ _ => Entry.listLink.inj] at hmem
    exact hmem
  refine ⟨?_, hroot⟩
  ext p
  show p = R'.idle ∨ p ∈ R'.procs ↔ p = R.idle ∨ p ∈ R.procs
  rw [hroot, hprocs]

-- ======================================================= consistency

/-- The members are more than the pool has, and few. -/
theorem Sound.consistent (h : Sound w R init) : Consistent w.kernel := by
  obtain ⟨t, hroot, hnum, hmem⟩ := h.queued
  have htab := h.tables.tables
  have hlisted : ∀ p, p ∈ R.members ∧ w.kernel.tables.idleproc ≠ some p
      ↔ Listed w.kernel.tables p := by
    intro p
    have hl : Listed w.kernel.tables p ↔ p ∈ R.procs := h.tables.listed
    rw [hl, h.idleproc]
    constructor
    · intro hp
      exact hp.1.resolve_left fun heq => hp.2 (by rw [heq])
    · intro hp
      refine ⟨.inr hp, fun heq => ?_⟩
      rw [← Option.some.inj heq] at hp
      exact htab.idle_notMem hp
  refine ⟨t, hroot, ?_, fun p => ?_⟩
  · have hsub : nodes t ⊆ R.procs := by
      intro p hp
      obtain ⟨hM, -, hne, -⟩ := (hmem p).1 hp
      exact h.tables.listed.1 ((hlisted p).1 ⟨hM, hne⟩)
    have hle := hroot.nodup.length_le_of_subset hsub
    have hnr := htab.nrProcess
    have hfew := h.few
    have hmax : maxProcess = 4096 := rfl
    have hlen : (R.procs.length : Int) + 1 ≤ 4096 := by
      rw [← hnr, ← hmax]
      exact hfew
    rw [hnum, BitVec.toNat_ofNat, Nat.mod_eq_of_lt]
    omega
  · rw [hmem p, ← hlisted p]
    constructor
    · intro hp
      exact ⟨⟨hp.1, hp.2.2.1⟩, hp.2.1, hp.2.2.1, hp.2.2.2⟩
    · intro hp
      exact ⟨hp.1.1, hp.2.1, hp.2.2.1, hp.2.2.2⟩

-- =========================================================== do_fork

/-- After a step of lab5 whose process side by side is as `Beside` says. -/
theorem Sound.of_beside {waits : ν → Option (Int × Option Nat)}
    {leaving : Bool} (_h : Sound w R init)
    (hinv : Inv ⟨s', waits⟩ R' init)
    (hb : Beside R'.members w.kernel.current (some init) (some R.idle)
      k' s')
    (hrun : leaving = false →
      (s'.procs w.kernel.current).state = .runnable)
    (hcur : w.kernel.current ∈ R'.members)
    (hidle : (s'.procs R.idle).state = .runnable) (hridle : R'.idle = R.idle)
    (hnowait : waits R.idle = none)
    (hfew : s'.nrProcess ≤ maxProcess) :
    Sound { kernel := k', waits, leaving } R' init := by
  obtain ⟨rfl, hq, hc, -, -⟩ := hb
  refine ⟨hinv, hq, ?_, ?_, ?_, ?_, hfew⟩
  · show k'.current ∈ _
    rw [hc]
    exact hcur
  · intro hl
    show (k'.tables.procs k'.current).state = _
    rw [hc]
    exact hrun hl
  · rw [hridle]
    exact hidle
  · rw [hridle]
    exact hnowait

/-- What heads `proc_list` is its first process. -/
theorem next_procList (h : Tables s R loose)
    (hnext : s.links.next .procList = .listLink proc) :
    ∃ rest, R.procs = proc :: rest := by
  have hhead : s.links.next .procList
      = after .procList (R.procs.map .listLink) :=
    IsRing.next_before (show IsRing s.links .procList
      ([] ++ R.procs.map .listLink) from h.list)
  rw [hnext] at hhead
  cases hprocs : R.procs with
  | nil =>
      rw [hprocs] at hhead
      cases hhead
  | cons p rest =>
      rw [hprocs] at hhead
      exact ⟨rest, by rw [Entry.listLink.inj hhead]⟩

theorem Sound.fork {flags : BitVec 32} {ret : Int} (h : Sound w R init)
    (hfree : Free w)
    (hcall : doFork fuel w.kernel.current flags w.kernel = some (ret, k')) :
    ∃ R', Sound { w with kernel := k' } R' init := by
  obtain ⟨s', hplain, hgrown, hmax⟩ :=
    doFork_sim h.beside h.tables.tables.live ret k' hcall
  have hruns := h.runs hfree.leaving
  have hforked := doFork_spec h.tables.tables h.current
    h.tables.tables.live (le_refl _) hplain
  obtain ⟨R', hinv, hkeep, -⟩ := h.tables.fork h.current hruns.state
    h.tables.tables.live hforked
  have hstate : ∀ q ∈ R.members, (s'.procs q).state
      = (w.kernel.tables.procs q).state := fun q hq =>
    congrArg Body.state (hkeep q hq).2
  have hgo : ∀ hfew : s'.nrProcess ≤ maxProcess,
      Beside R'.members w.kernel.current (some init) (some R.idle) k' s' →
      ∃ R', Sound { w with kernel := k' } R' init := by
    intro hfew hb
    have hidle : s'.idleproc = some R.idle := by
      cases hforked with
      | failed hret hframe hlive =>
          exact hframe.vars.idleproc.trans h.idleproc
      | child proc i hnew hlive htab => exact htab.idleproc
    have hridle : R'.idle = R.idle :=
      Option.some.inj (hinv.tables.idleproc.symm.trans hidle)
    refine ⟨R', h.of_beside hinv hb (fun _ => ?_) (hkeep _ h.current).1 ?_
      hridle h.noWait hfew⟩
    · rw [hstate _ h.current]
      exact hruns.state
    · rw [hstate _ R.idle_mem]
      exact h.idle
  rcases hgrown with ⟨hret, hb, hcount⟩ | ⟨proc, hproc, hb, hnext, hcount⟩
  · -- it failed
    refine hgo (by rw [hcount]; exact h.few) ?_
    cases hforked with
    | failed _ hframe hlive =>
        have htab : Tables s' R ∅ :=
          h.tables.tables.congr hframe.sameTables fun p hp =>
            hlive (h.tables.tables.live p hp)
        rw [(members_eq htab hinv.tables rfl rfl).1]
        exact hb
    | child proc i hnew hlive htab hbody hst hws hpid hinit =>
        have hone := htab.pid_pos proc List.mem_cons_self
        omega
  · -- it succeeded
    cases hforked with
    | failed hret hframe hlive =>
        rw [hframe.links] at hnext
        obtain ⟨rest, hprocs⟩ := next_procList h.tables.tables hnext
        refine absurd (Roster.mem_of_procs ?_) hproc
        rw [hprocs]
        exact List.mem_cons_self
    | child proc' i hnew hlive htab hbody hst hws hpid hinit =>
        obtain ⟨rest, hprocs⟩ := next_procList htab hnext
        have heq : proc' = proc := (List.cons.inj hprocs).1
        have hone := htab.pid_pos proc' List.mem_cons_self
        have hlt := hmax (by omega)
        refine hgo (by omega) ?_
        rw [(members_eq htab hinv.tables rfl rfl).1, Roster.join_members, heq]
        exact hb

-- =========================================================== do_exit

/-- A do_exit, called or reached in do_wait. -/
theorem Sound.exit {code : Int} {l : Process.Label ν}
    (h : Sound w R init) (hleaving : w.leaving = false)
    (hne : w.kernel.current ≠ R.idle)
    (hcall : doExit fuel w.kernel.current code w.kernel = some (u, k'))
    (hexits : ∀ c, l.exits c = if w.kernel.current = c then some code else none)
    (hreaps : ∀ c, l.reaps c = none) :
    ∃ R', Sound { kernel := k'
                  waits := Function.update w.waits w.kernel.current none
                  leaving := true } R' init := by
  obtain ⟨s', hplain, hb⟩ := doExit_sim h.beside h.init_mem
    (h.parent_mem hne) u k' hcall
  have hruns := h.runs hleaving
  obtain ⟨parent, hpm, hparent⟩ :=
    h.tables.tables.family.parent _ h.current hne
  have hproc := h.current.resolve_left hne
  obtain ⟨-, hx⟩ := doExit_spec h.tables.tables hproc h.initproc
    h.tables.init_procs hparent hpm
    (h.tables.run_zero _ h.current hruns.state) h.tables.run_zero
    h.tables.init_mem hplain
  obtain ⟨R', hinv, -⟩ := h.tables.step_exit hruns hplain hexits hreaps
  obtain ⟨hreparent, hridle⟩ := members_eq hx.tables hinv.tables rfl rfl
  have hmem : R'.members = R.members := hreparent
  refine ⟨R', h.of_beside hinv ?_ (fun hl => ?_) ?_ ?_ ?_ ?_ ?_⟩
  · rw [hmem]
    exact hb
  · cases hl
  · rw [hmem]
    exact h.current
  · rcases hx.other R.idle (Ne.symm hne) with heq | heq
    · exact (congrArg Body.state heq).trans h.idle
    · exact congrArg Body.state heq.1
  · exact hridle
  · exact (Function.update_of_ne (Ne.symm hne) _ _).trans h.noWait
  · have hnr : s'.nrProcess = _ := hx.tables.nrProcess
    rw [hnr]
    have hnr' := h.tables.tables.nrProcess
    have hfew := h.few
    show (R.procs.length : Int) + 1 ≤ _
    rw [← hnr']
    exact hfew

-- =========================================================== do_wait

/-- A stretch of do_wait puts the current process to sleep, or leaves what the
processes are alone. -/
theorem waitSpec_plain {pid : Int} {store : Option Nat} {r : Waited ν}
    (hspec : WaitSpec s s' R c pid store r) (h : Tables s R loose) :
    Plain M c s s' := by
  cases hspec with
  | reaped proc i _ _ _ _ _ htab hbody hvar =>
      refine ⟨htab.idleproc.trans h.idleproc.symm, hvar, fun p _ _ => ?_⟩
      exact congrArg Body.state (congrFun hbody p)
  | badProc hsame =>
      rw [hsame]
      exact .refl
  | inval hsame =>
      rw [hsame]
      exact .refl
  | slept _ htab hbody hvar =>
      refine ⟨htab.idleproc.trans h.idleproc.symm, hvar, fun p _ hp => ?_⟩
      have hb := congrFun hbody p
      rw [Function.update_of_ne hp] at hb
      exact congrArg Body.state hb

/-- A stretch of do_wait, from its start or after `schedule`. -/
theorem Sound.wait {pid : Int} {store : Option Nat} {r : Waited ν}
    {waits : ν → Option (Int × Option Nat)}
    (h : Sound w R init) (hleaving : w.leaving = false)
    (hne : w.kernel.current ≠ R.idle)
    (hspec : WaitSpec w.kernel.tables s' R w.kernel.current pid store r)
    (hb : Beside R.members w.kernel.current (some init) (some R.idle) k' s')
    (hinv : Inv ⟨s', waits⟩ R' init) (hnowait : waits R.idle = none) :
    Sound { kernel := k', waits, leaving := decide (r = .slept) } R' init := by
  have hruns := h.runs hleaving
  have htabs := h.tables.tables
  have hplain : Plain R.members w.kernel.current w.kernel.tables s' :=
    waitSpec_plain hspec htabs
  have hidle : (s'.procs R.idle).state = .runnable :=
    (hplain.state _ R.idle_mem (Ne.symm hne)).trans h.idle
  cases hspec with
  | reaped proc i hchild hz _ hidlep _ htab hbody =>
      have hstate : ∀ p, (s'.procs p).state = (w.kernel.tables.procs p).state :=
        fun p => congrArg Body.state (congrFun hbody p)
      have hcm := (htabs.family.child _ h.current proc hchild).1
      have hcroot := (htabs.family.child _ h.current proc hchild).2.1
      have hproc := hcm.resolve_left hcroot
      obtain ⟨hpart, hridle⟩ := members_eq htab hinv.tables rfl rfl
      have hmem : R'.members = R.members \ {proc} :=
        hpart.trans (htabs.part_members hproc i)
      refine h.of_beside hinv ?_ (fun _ => ?_) ?_ hidle hridle hnowait ?_
      · rw [hmem]
        refine ⟨hb.tables, hb.queued.remove ?_, hb.current, hb.initproc,
          hb.idleproc⟩
        rw [hb.tables, hstate, hz]
        intro heq
        cases heq
      · rw [hstate]
        exact hruns.state
      · rw [hmem]
        refine ⟨h.current, fun heq => ?_⟩
        have hst := hruns.state
        have hcp : w.kernel.current = proc := heq
        rw [hcp] at hst
        cases hz.symm.trans hst
      · have hnr : s'.nrProcess = _ := htab.nrProcess
        have hnr' := htabs.nrProcess
        have hfew := h.few
        have hle : (R.part proc w.kernel.current i).procs.length
            ≤ R.procs.length := (List.erase_sublist).length_le
        have hk : w.plain.kernel.nrProcess = w.kernel.tables.nrProcess := rfl
        omega
  | badProc hsame =>
      rw [hsame] at hb hinv
      obtain ⟨hmem, hridle⟩ := members_eq htabs hinv.tables rfl rfl
      rw [← hmem] at hb
      refine h.of_beside hinv hb (fun _ => hruns.state) ?_ h.idle hridle
        hnowait h.few
      rw [hmem]
      exact h.current
  | inval hsame =>
      rw [hsame] at hb hinv
      obtain ⟨hmem, hridle⟩ := members_eq htabs hinv.tables rfl rfl
      rw [← hmem] at hb
      refine h.of_beside hinv hb (fun _ => hruns.state) ?_ h.idle hridle
        hnowait h.few
      rw [hmem]
      exact h.current
  | slept _ htab _ _ _ =>
      obtain ⟨hmem, hridle⟩ := members_eq htab hinv.tables rfl rfl
      rw [← hmem] at hb
      refine h.of_beside hinv hb (fun hl => ?_) ?_ hidle hridle hnowait ?_
      · cases hl
      · rw [hmem]
        exact h.current
      · have hnr : s'.nrProcess = _ := htab.nrProcess
        have hnr' := htabs.nrProcess
        rw [hnr, ← hnr']
        exact h.few

/-- A call that only wakes processes up, and keeps the tables. -/
theorem Sound.calm {s' : State A} (h : Sound w R init)
    (hb : Beside R.members w.kernel.current (some init) (some R.idle) k' s')
    (hinv : Inv ⟨s', w.waits⟩ R' init) (htab : Tables s' R ∅)
    (hrun : ∀ p, (w.kernel.tables.procs p).state = .runnable →
      (s'.procs p).state = .runnable) :
    Sound { w with kernel := k' } R' init := by
  obtain ⟨hmem, hridle⟩ := members_eq htab hinv.tables rfl rfl
  rw [← hmem] at hb
  refine h.of_beside hinv hb (fun hl => hrun _ (h.running hl)) ?_
    (hrun _ h.idle) hridle h.noWait ?_
  · rw [hmem]
    exact h.current
  · have hnr : s'.nrProcess = _ := htab.nrProcess
    have hnr' := h.tables.tables.nrProcess
    rw [hnr, ← hnr']
    exact h.few

/-- Waking a process up keeps what lab5 has. -/
theorem wake_inv {w : Process.World A} (h : Inv w R init)
    (hp : p ∈ R.members)
    (hcall : Process.wakeupProc p w.kernel = some (u, s')) :
    Tables s' R ∅ ∧ Inv { w with kernel := s' } R init
      ∧ ∀ q, (w.kernel.procs q).state = .runnable →
        (s'.procs q).state = .runnable := by
  obtain ⟨ht, hz⟩ := wakeupProc_spec (h.run_zero p hp) hcall
  have htab := h.tables.wake ht
  have hmay : ∀ q, MayWake (body w.kernel q) (body s' q) := by
    intro q
    rw [ht.body, Function.update_apply]
    split
    case isTrue hq =>
        rw [hq]
        exact .inr ⟨rfl, hz⟩
    case isFalse => exact .refl _
  refine ⟨htab, h.calm htab ht.vars.initproc (fun q _ => ?_) (fun q hq => ?_)
    (fun q _ hst => ?_) (fun q _ hst => ?_), fun q hst => ?_⟩
  · rcases hmay q with hb | hb
    · exact congrArg Body.pid hb
    · exact congrArg Body.pid hb.1
  · exact (h.status q hq).step (hmay q) fun _ => rfl
  · rcases hmay q with hb | hb
    · exact (congrArg Body.state hb).symm.trans hst
    · cases (congrArg Body.state hb.1).symm.trans hst
  · exact (hmay q).zombie_iff.1.1 hst
  · rcases hmay q with hb | hb
    · exact (congrArg Body.state hb).trans hst
    · exact congrArg Body.state hb.1

-- ============================================================ a step

/-- A step of the current process keeps everything in order. -/
theorem Sound.step (h : Sound w R init) (hs : Step w l w') :
    ∃ R', Sound w' R' init := by
  cases hs with
  | fork hfree hcall => exact h.fork hfree hcall
  | @exit fuel code u k hfree hcall =>
      have hgo := h.exit (l := .exit w.kernel.current code) hfree.leaving
        (h.current_ne hfree) hcall (fun _ => rfl) (fun _ => rfl)
      rw [Function.update_eq_self_iff.2 hfree.waits.symm] at hgo
      exact hgo
  | @wait fuel pid store r k hfree hcall =>
      have hruns := h.runs hfree.leaving
      have hne := h.current_ne hfree
      have hplain : ∀ r s', Process.doWait fuel w.kernel.current pid store
          w.kernel.tables = some (r, s') →
          Plain R.members w.kernel.current w.kernel.tables s' :=
        fun r s' hrun => waitSpec_plain (doWait_spec h.tables.tables h.current
          h.tables.childless hrun) h.tables.tables
      obtain ⟨s', hrun, hb⟩ := onTables_quiet h.beside hplain r k hcall
      have hspec := doWait_spec h.tables.tables h.current h.tables.childless
        hrun
      obtain ⟨R', hinv, -⟩ := h.tables.step (.wait hruns hfree.waits hrun)
      refine ⟨R', h.wait hfree.leaving hne hspec hb hinv ?_⟩
      by_cases hr : r = .slept
      · rw [if_pos hr]
        exact (Function.update_of_ne (Ne.symm hne) _ _).trans h.noWait
      · rw [if_neg hr]
        exact h.noWait
  | @resume fuel pid store r k hleaving hpc hcall =>
      have hruns := h.runs hleaving
      have hne : w.kernel.current ≠ R.idle := by
        intro heq
        rw [heq, h.noWait] at hpc
        cases hpc
      have hwaits : ∀ o, Function.update w.waits w.kernel.current o R.idle
          = none := fun o =>
        (Function.update_of_ne (Ne.symm hne) _ _).trans h.noWait
      rw [waitResume, bind_eq_some] at hcall
      obtain ⟨s₁, k₁, hget, hcall⟩ := hcall
      simp only [onTables_eq_some, get_eq_some] at hget
      obtain ⟨s₂, ⟨rfl, rfl⟩, rfl⟩ := hget
      split at hcall
      case isTrue hex =>
          rw [bind_eq_some] at hcall
          obtain ⟨x, k₂, hexit, hret⟩ := hcall
          obtain ⟨rfl, rfl⟩ := pure_eq_some.1 hret
          exact h.exit (l := .resume w.kernel.current .killed) hleaving hne
            hexit (fun _ => rfl) (fun _ => rfl)
      case isFalse hex =>
          have hplain : ∀ r s', waitRepeat fuel w.kernel.current pid store
              w.kernel.tables = some (r, s') →
              Plain R.members w.kernel.current w.kernel.tables s' :=
            fun r s' hrun => waitSpec_plain (waitRepeat_spec h.tables.tables
              h.current h.tables.childless hrun) h.tables.tables
          obtain ⟨s', hrun, hb⟩ := onTables_quiet h.beside hplain r k hcall
          have hspec := waitRepeat_spec h.tables.tables h.current
            h.tables.childless hrun
          have hresume : Process.waitResume fuel w.kernel.current pid store
              w.plain.kernel = some (r, s') := by
            have hgo : Process.waitResume fuel w.kernel.current pid store
                w.kernel.tables = some (r, s') := by
              rw [Process.waitResume, bind_eq_some]
              refine ⟨_, _, get_eq_some.2 ⟨rfl, rfl⟩, ?_⟩
              rw [if_neg hex]
              exact hrun
            exact hgo
          obtain ⟨R', hinv, -⟩ := h.tables.step (.resume hruns hpc hresume)
          have hkilled : decide (r = .slept ∨ r = .killed)
              = decide (r = .slept) := by
            cases hspec with
            | reaped => rfl
            | badProc => rfl
            | inval => rfl
            | slept => rfl
          rw [hkilled]
          refine ⟨R', h.wait hleaving hne hspec hb hinv ?_⟩
          by_cases hr : r = .slept
          · rw [if_pos hr]
            exact h.noWait
          · rw [if_neg hr]
            exact hwaits none
  | @kill fuel pid ret k hfree hcall =>
      have hruns := h.runs hfree.leaving
      have hfind : ∀ r s', findProc fuel pid w.kernel.tables = some (r, s') →
          s' = w.kernel.tables ∧ ∀ q, r = some q → q ∈ R.members := by
        intro r s' hrun
        obtain ⟨rfl, hfound⟩ := h.tables.tables.findProc hrun
        exact ⟨rfl, fun q hq => .inr (hfound.1 q hq).1⟩
      obtain ⟨s', hrun, hb⟩ := doKill_sim h.beside hfind ret k hcall
      obtain ⟨htab, -, -, hmay⟩ := doKill_spec h.tables.tables
        h.tables.run_zero hrun
      obtain ⟨R', hinv, -⟩ := h.tables.step (.kill hruns hfree.waits hrun)
      refine ⟨R', h.calm hb hinv htab fun q hst => ?_⟩
      rcases hmay q with heq | heq
      · exact (congrArg Body.state heq).trans hst
      · exact congrArg Body.state heq.1
  | @user mm mem hfree hlive =>
      have hruns := h.runs hfree.leaving
      have hstep : Process.Step w.plain (.user w.kernel.current)
          { w.plain with kernel :=
            { w.plain.kernel.update w.kernel.current fun q => { q with mm }
              with mem } } := .user hruns hfree.waits hlive
      obtain ⟨R', hinv, -⟩ := h.tables.step hstep
      obtain ⟨hmem, hridle⟩ :=
        members_eq h.tables.tables hinv.tables rfl rfl
      have hst : ∀ q, ((w.kernel.tables.update w.kernel.current
          fun q => { q with mm }).procs q).state
          = (w.kernel.tables.procs q).state := by
        intro q
        rw [update_procs]
        split
        case isTrue hq => rw [hq]
        case isFalse => rfl
      refine ⟨R', hinv, ?_, ?_, fun hl => (hst _).trans (h.running hl), ?_, ?_,
        h.few⟩
      · rw [hmem]
        exact h.queued.congr rfl rfl rfl rfl fun q _ _ => hst q
      · rw [hmem]
        exact h.current
      · rw [hridle]
        exact (hst _).trans h.idle
      · rw [hridle]
        exact h.noWait
  | @wakeup fuel p u k hp hcall =>
      have hmem : p ∈ R.members := by
        rcases hp with hidle | hlisted
        · rw [h.idleproc] at hidle
          exact .inl (Option.some.inj hidle).symm
        · exact .inr (h.tables.listed.1 hlisted)
      obtain ⟨s', hrun, hb, -⟩ := h.beside.wakeup_sim hmem u k hcall
      obtain ⟨htab, hinv, hst⟩ := wake_inv h.tables hmem hrun
      exact ⟨R, h.calm hb hinv htab hst⟩
  | @schedule fuel quotient u k hcall =>
      obtain ⟨htab, hq, hnext⟩ := schedule_spec h.queued h.current hcall
      refine ⟨R, ?_, hq, ?_, fun _ => ?_, ?_, h.noWait, ?_⟩
      · show Inv ⟨k.tables, w.waits⟩ R init
        rw [htab]
        exact h.tables
      · rcases hnext with hidle | hcur
        · rw [h.idleproc] at hidle
          exact .inl (Option.some.inj hidle).symm
        · exact hcur.1
      · show (k.tables.procs k.current).state = _
        rw [htab]
        rcases hnext with hidle | hcur
        · rw [h.idleproc] at hidle
          rw [← Option.some.inj hidle]
          exact h.idle
        · exact hcur.2
      · show (k.tables.procs R.idle).state = _
        rw [htab]
        exact h.idle
      · show k.tables.nrProcess ≤ _
        rw [htab]
        exact h.few
  | @tick u k hcall =>
      obtain ⟨σ, hpool, hrq, rfl⟩ := schedClassProcTick_spec hcall
      exact ⟨R, h.tables, h.queued.congr hpool hrq rfl rfl fun _ _ _ => rfl,
        h.current, h.running, h.idle, h.noWait, h.few⟩
  | setPriority hfree =>
      exact ⟨R, h.tables, h.queued.congr rfl rfl rfl rfl fun _ _ _ => rfl,
        h.current, h.running, h.idle, h.noWait, h.few⟩

-- ========================================================= the start

theorem findProc_state {pid : Int} {r : Option ν}
    (hcall : findProc fuel pid s = some (r, s')) : s' = s := by
  rw [findProc] at hcall
  split at hcall
  case isTrue =>
      simp only [bind_eq_some, get_eq_some, ofOption_eq_some] at hcall
      obtain ⟨s₁, s₂, ⟨rfl, rfl⟩, -, rfl⟩ := hcall
      rfl
  case isFalse => exact (pure_eq_some.1 hcall).2

/-- While there is no process the pool is empty, whatever else changes. -/
theorem Queued.empty (h : Queued k ∅) (hpool : k'.sched.pool = k.sched.pool)
    (hrq : k'.sched.rq = k.sched.rq) : Queued k' ∅ := by
  obtain ⟨t, hroot, hnum, hmem⟩ := h
  refine ⟨t, ?_, ?_, fun p => ?_⟩
  · rw [hpool, hrq]
    exact hroot
  · rw [hrq]
    exact hnum
  · exact ⟨fun hp => absurd ((hmem p).1 hp).1 (Set.notMem_empty p),
      fun hp => hp.1.elim⟩

/-- The same while there is idle only. -/
theorem Queued.alone {idle : ν} (h : Queued k ∅)
    (hidle : k.tables.idleproc = some idle) : Queued k {idle} := by
  obtain ⟨t, hroot, hnum, hmem⟩ := h
  refine ⟨t, hroot, hnum, fun p => ?_⟩
  constructor
  · intro hp
    exact absurd ((hmem p).1 hp).1 (Set.notMem_empty p)
  · intro hp
    rw [hidle, Set.mem_singleton_iff.1 hp.1] at hp
    exact absurd rfl hp.2.2.1

/-- The kernel next to the tables of lab5 before there are processes. -/
structure Bare (k : Kernel A) (s : State A) : Prop where
  tables : k.tables = s
  queued : Queued k ∅

theorem Bare.sim {α : Type} {m : ProcM A α} (h : Bare k s) :
    Sim (onTables m) m k s fun a k' s' => Bare k' s' ∧ m s = some (a, s') := by
  intro a k' hcall
  obtain ⟨rfl, hq⟩ := h
  obtain ⟨s', hm, rfl⟩ := onTables_eq_some.1 hcall
  exact ⟨s', hm, ⟨rfl, hq.empty rfl rfl⟩, hm⟩

theorem Bare.modify_sim {f : State A → State A} (h : Bare k s) :
    Sim (onTables (modify f)) (modify f) k s fun _ k' s' =>
      Bare k' s' ∧ s' = f s :=
  h.sim.mono fun _ _ _ hR => ⟨hR.1, modify_eq_some.1 hR.2⟩

/-- After `proc_init` there is idle, which is the current process, and one
more. -/
structure Booted (k : Kernel A) (s : State A) (proc : ν) : Prop where
  tables : k.tables = s
  idleproc : s.idleproc = some k.current
  queued : Queued k (insert proc {k.current})
  next : s.links.next .procList = .listLink proc
  nrProcess : s.nrProcess = 2

theorem setLinks_nrProcess (s : State A) (links : Links (Entry ν)) :
    (s.setLinks links).nrProcess = s.nrProcess := rfl

theorem procInit_sim {bootstack : Nat} (h : Bare k s)
    (hn : s.nrProcess = 0) :
    Sim (procInit fuel bootstack) (Process.procInit fuel bootstack) k s
      fun _ k' s' => ∃ proc, Booted k' s' proc := by
  rw [procInit, Process.procInit]
  refine h.modify_sim.bind fun _ k₁ s₁ hR => ?_
  obtain ⟨h₁, hs₁⟩ := hR
  have hn₁ : s₁.nrProcess = 0 :=
    (congrArg State.nrProcess hs₁).trans ((setLinks_nrProcess _ _).trans hn)
  refine h₁.modify_sim.bind fun _ k₂ s₂ hR => ?_
  obtain ⟨h₂, hs₂⟩ := hR
  have hn₂ : s₂.nrProcess = 0 :=
    (congrArg State.nrProcess hs₂).trans ((setLinks_nrProcess _ _).trans hn₁)
  clear hs₁ hs₂
  have hb₂ : Beside ∅ k₂.current s₂.initproc s₂.idleproc k₂ s₂ :=
    ⟨h₂.tables, h₂.queued, rfl, rfl, rfl⟩
  refine Sim.bind (R := fun o k' s' => Bare k' s' ∧ s'.nrProcess = 0
    ∧ ∀ p, o = some p → p ∈ A.live s'.mem) ?_ fun o k₃ s₃ hR => ?_
  · intro o k' hcall
    obtain ⟨s', hrun, hb, -, hcount, -⟩ :=
      allocProc_sim hb₂ (Set.empty_subset _) o k' hcall
    refine ⟨s', hrun, ⟨hb.tables, hb.queued⟩, hcount.trans hn₂, fun p hp => ?_⟩
    obtain ⟨-, -, hnew⟩ := allocProc_spec (Set.empty_subset _) hrun
    exact (hnew p hp).2.1
  obtain ⟨h₃, hn₃, hlive₃⟩ := hR
  refine Sim.bind (R := fun idle k' s' => Bare k' s' ∧ s'.nrProcess = 0
    ∧ idle ∈ A.live s'.mem)
    (.ofOption fun idle hidle => ⟨h₃, hn₃, hlive₃ idle hidle⟩)
    fun idle k₄ s₄ hR => ?_
  obtain ⟨h₄, hn₄, hlive₄⟩ := hR
  refine h₄.modify_sim.bind fun _ k₅ s₅ hR => ?_
  obtain ⟨h₅, hs₅⟩ := hR
  refine h₅.modify_sim.bind fun _ k₆ s₆ hR => ?_
  obtain ⟨h₆, hs₆⟩ := hR
  refine .left fun _ k₇ hset => ?_
  have h₇ : Bare k₇ s₆ := by
    have hq := h₆.queued.setNeedResched hset
    rw [setNeedResched, modify_eq_some] at hset
    refine ⟨?_, hq⟩
    rw [hset]
    exact h₆.tables
  refine h₇.modify_sim.bind fun _ k₈ s₈ hR => ?_
  obtain ⟨h₈, hs₈⟩ := hR
  refine .left fun _ k₉ hcur => ?_
  rw [modify_eq_some] at hcur
  have hidle₈ : s₈.idleproc = some idle := by rw [hs₈, hs₆, hs₅]; rfl
  have hn₈ : s₈.nrProcess = 1 := by
    rw [hs₈, hs₆, hs₅]
    show s₄.nrProcess + 1 = 1
    rw [hn₄]
    rfl
  have hlive₈ : ({idle} : Set ν) ⊆ A.live s₈.mem := by
    rw [hs₈, hs₆, hs₅]
    intro p hp
    rw [Set.mem_singleton_iff.1 hp]
    exact hlive₄
  have h₉ : Beside {idle} idle s₈.initproc (some idle) k₉ s₈ := by
    have hq : Queued k₉ ∅ := h₈.queued.empty (by rw [hcur]) (by rw [hcur])
    have htab : k₉.tables = s₈ := by
      rw [hcur]
      exact h₈.tables
    refine ⟨htab, hq.alone ?_, by rw [hcur], rfl, hidle₈⟩
    rw [htab]
    exact hidle₈
  refine (doFork_sim h₉ hlive₈).bind fun pid k₁₀ s₁₀ hR => ?_
  obtain ⟨hgrown, -⟩ := hR
  refine Sim.bind (R := fun _ k' s' => k' = k₁₀ ∧ s' = s₁₀ ∧ 0 < pid)
    (.assert fun hpos => ⟨rfl, rfl, hpos⟩) fun _ k₁₁ s₁₁ hR => ?_
  obtain ⟨rfl, rfl, hpos⟩ := hR
  rcases hgrown with ⟨hneg, -⟩ | ⟨proc, -, h₁₁, hnext, hcount⟩
  · omega
  refine Sim.bind (h₁₁.tables_sim fun r s' hfind => ?_) fun r k₁₂ s₁₂ hR => ?_
  · rw [findProc_state hfind]
    exact .refl
  obtain ⟨h₁₂, hfind⟩ := hR
  obtain rfl := findProc_state hfind
  refine Sim.bind (R := fun _ k' s' => Booted k' s' proc) ?_
    fun _ k₁₃ s₁₃ h₁₃ => ?_
  · intro x k' hcall
    obtain ⟨s', hmod, rfl⟩ := onTables_eq_some.1 hcall
    rw [h₁₂.tables] at hmod
    refine ⟨s', hmod, ?_⟩
    rw [modify_eq_some] at hmod
    refine ⟨rfl, ?_, ?_, ?_, ?_⟩
    · rw [hmod]
      show s₁₂.idleproc = some k₁₂.current
      rw [h₁₂.idleproc, h₁₂.current]
    · have hidle : s'.idleproc = k₁₂.tables.idleproc := by
        rw [hmod, h₁₂.tables]
      have hq := h₁₂.queued
      rw [← h₁₂.current] at hq
      refine hq.congr rfl rfl rfl hidle fun p _ _ => ?_
      show (s'.procs p).state = _
      rw [hmod, h₁₂.tables]
    · rw [hmod]
      exact hnext
    · rw [hmod]
      show s₁₂.nrProcess = 2
      rw [hcount, hn₈]
      rfl
  refine Sim.bind (R := fun a k' s' => Booted k' s' proc ∧ a = s') ?_
    fun a k₁₄ s₁₄ hR => ?_
  · intro a k' hcall
    obtain ⟨s', hget, rfl⟩ := onTables_eq_some.1 hcall
    obtain ⟨rfl, rfl⟩ := get_eq_some.1 hget
    rw [← h₁₃.tables]
    exact ⟨k₁₃.tables, get_eq_some.2 ⟨rfl, rfl⟩,
      ⟨rfl, h₁₃.tables ▸ h₁₃.idleproc, h₁₃.queued, h₁₃.tables ▸ h₁₃.next,
        h₁₃.tables ▸ h₁₃.nrProcess⟩, rfl⟩
  obtain ⟨h₁₄, rfl⟩ := hR
  refine Sim.bind (R := fun _ k' s' => Booted k' s' proc)
    (.ofOption fun _ _ => h₁₄) fun _ k₁₅ s₁₅ h₁₅ => ?_
  exact .assert fun _ => ⟨proc, h₁₅⟩

theorem schedInit_spec {slice : Int} (hcall : schedInit slice k = some (u, k')) :
    k'.tables = k.tables ∧ Queued k' ∅ := by
  obtain ⟨σ, hσ, rfl⟩ := onSched_eq_some.1 hcall
  cases hσ
  refine ⟨rfl, .nil, ⟨rfl, List.nodup_nil, ?_⟩, rfl, fun p => ?_⟩
  · intro y hy
    cases hy
  · exact ⟨fun hp => absurd hp List.not_mem_nil, fun hp => hp.1.elim⟩

/-- After the start idle is the current process, and init can run. -/
theorem Start.booted (h : Start w) : ∃ R init, Sound w R init
    ∧ R.idle = w.kernel.current
    ∧ (w.kernel.tables.procs init).state = .runnable := by
  obtain ⟨⟨k, k₀, x₀, fuel, bootstack, slice, hn, hlast, hsafe, hidle, hinit,
    hsched, hcall⟩, hwaits, hleaving⟩ := h
  obtain ⟨htab₀, hq₀⟩ := schedInit_spec hsched
  have hbare : Bare k₀ k.tables := ⟨htab₀, hq₀⟩
  obtain ⟨s', hplain, proc, hboot⟩ := procInit_sim hbare hn () _ hcall
  obtain ⟨rfl, hidle', hq, hnext, hcount⟩ := hboot
  have hstart : Process.Start w.plain :=
    ⟨⟨k.tables, fuel, bootstack, hn, hlast, hsafe, hidle, hinit, hplain⟩,
      hwaits⟩
  obtain ⟨R, init, hinv, hzombie⟩ := hstart.inv
  have hroot : R.idle = w.kernel.current :=
    Option.some.inj (hinv.tables.idleproc.symm.trans hidle')
  obtain ⟨rest, hprocs⟩ := next_procList hinv.tables hnext
  have hnil : rest = [] := by
    have hnr := hinv.tables.nrProcess
    have hnr' : w.plain.kernel.nrProcess = 2 := hcount
    rw [hprocs, hnr', List.length_cons] at hnr
    exact List.eq_nil_of_length_eq_zero (by omega)
  have hmem : R.members = insert proc {w.kernel.current} := by
    ext p
    show p = R.idle ∨ p ∈ R.procs ↔ p = proc ∨ p = w.kernel.current
    rw [hroot, hprocs, hnil, List.mem_singleton, or_comm]
  have hstate : (w.kernel.tables.procs R.idle).state = .runnable := by
    cases hinv.status R.idle R.idle_mem with
    | runnable hst => exact hst
    | sleeping _ _ hwait => exact absurd (hwaits _) hwait
    | zombie hst => exact absurd ⟨R.idle_mem, hst⟩ (hzombie R.idle)
  have hrun : (w.kernel.tables.procs init).state = .runnable := by
    cases hinv.status init (.inr hinv.init_procs) with
    | runnable hst => exact hst
    | sleeping _ _ hwait => exact absurd (hwaits _) hwait
    | zombie hst => exact absurd ⟨.inr hinv.init_procs, hst⟩ (hzombie init)
  refine ⟨R, init, ⟨hinv, ?_, ?_, fun _ => ?_, hstate, hwaits _, ?_⟩, hroot,
    hrun⟩
  · rw [hmem]
    exact hq
  · rw [← hroot]
    exact R.idle_mem
  · rw [← hroot]
    exact hstate
  · rw [hcount]
    decide

theorem Start.sound (h : Start w) : ∃ R init, Sound w R init := by
  obtain ⟨R, init, hsound, -⟩ := h.booted
  exact ⟨R, init, hsound⟩

theorem Sound.run (hrun : Run Step w ls w') (h : Sound w R init) :
    ∃ R', Sound w' R' init := by
  induction hrun generalizing R with
  | nil w => exact ⟨R, h⟩
  | cons hs _ ih =>
      obtain ⟨R₁, h₁⟩ := h.step hs
      exact ih h₁

/-- In every state of a run the run pool is a heap of the RUNNABLE processes but
idle and the current one, each once, and `proc_num` is their number. -/
theorem run_queue_consistent (hstart : Start w) (hrun : Run Step w ls w') :
    Consistent w'.kernel := by
  obtain ⟨R, init, h⟩ := hstart.sound
  obtain ⟨R', h'⟩ := h.run hrun
  exact h'.consistent

-- ==================================================== a small kernel

/-- The kernel that a call leaves, when it does not panic. -/
@[irreducible] def kernelAfter {α : Type} (m : KernelM smallMemory α)
    (k : Kernel smallMemory) : Kernel smallMemory :=
  match m k with
  | some (_, k') => k'
  | none => k

theorem kernelAfter_eq {α : Type} {m : KernelM smallMemory α}
    {k : Kernel smallMemory} {r : α} (h : (m k).map Prod.fst = some r) :
    m k = some (r, kernelAfter m k) := by
  obtain ⟨⟨r', k'⟩, hm, hr⟩ := Option.map_eq_some_iff.1 h
  unfold kernelAfter
  rw [hm]
  cases hr
  rfl

/-- The variables before sched_init and proc_init. -/
def bootKernel : Kernel smallMemory where
  tables := boot 4
  current := 0
  sched :=
    { procs := fun _ => ⟨false, false, 0, 0, 1⟩
      pool := fun _ => ⟨none, none, none⟩
      rq := ⟨0, 0, none⟩ }

/-- Idle, and init in the pool. -/
def bootedWorld : World smallMemory where
  kernel := kernelAfter (procInit 4 0) (kernelAfter (schedInit 5) bootKernel)
  waits _ := none
  leaving := false

theorem bootedWorld_start : Start bootedWorld where
  init := ⟨bootKernel, kernelAfter (schedInit 5) bootKernel, (), 4, 0, 5, rfl,
    rfl, rfl, rfl, rfl, kernelAfter_eq (by decide +kernel),
    kernelAfter_eq (by decide +kernel)⟩
  waits _ := rfl
  leaving := rfl

/-- Init is scheduled and forks. -/
theorem run_queue_consistent_forked :
    ∃ w, Run Step bootedWorld [.schedule, .fork 0 2] w
      ∧ Consistent w.kernel := by
  let w₁ : World smallMemory :=
    { bootedWorld with kernel := kernelAfter (schedule 4 0) bootedWorld.kernel }
  have hrun₁ : Step bootedWorld .schedule w₁ :=
    .schedule (kernelAfter_eq (r := ()) (by decide +kernel))
  have hfree : Free w₁ := ⟨rfl, rfl, by decide +kernel⟩
  have hrun : Run Step bootedWorld [.schedule, .fork 0 2]
      { w₁ with kernel :=
        kernelAfter (doFork 4 w₁.kernel.current 0) w₁.kernel } :=
    .cons hrun₁ (.single (.fork hfree (kernelAfter_eq (by decide +kernel))))
  exact ⟨_, hrun, run_queue_consistent bootedWorld_start hrun⟩

end Ucore.Schedule
