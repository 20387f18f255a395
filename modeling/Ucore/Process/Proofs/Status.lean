/-
The invariant of runs of processes, and how each call keeps it.

Every process is RUNNABLE, asleep in do_wait, or a zombie without
children. A process that exits wakes its parent, and init when it hands it
a zombie, so a SLEEPING one never misses the exit of a child.
-/
import Ucore.Process.Proofs.Calls
import Ucore.Process.System

namespace Ucore.Process

open Ring

variable {ν : Type} [DecidableEq ν] {A : Memory ν} {s s' : State A}
  {R : Roster ν} {w w' : World A} {p q c proc current init : ν}
  {l : Label ν} {ls : List (Label ν)}

/-- The status of a process: what it is apart from its links, the arguments
of the do_wait it is in, its children, and whether it is neither idle nor
init. -/
inductive Status {μ : Type} (b : Body μ) (wait : Option (Int × Option Nat))
    (children : List ν) (plain : Prop) : Prop
  | runnable (state : b.state = .runnable) (ws : b.waitState = 0)
  | sleeping (state : b.state = .sleeping) (ws : b.waitState = wtChild)
      (hwait : wait ≠ none)
  | zombie (state : b.state = .zombie) (ws : b.waitState = 0)
      (hwait : wait = none) (hchildren : children = []) (hplain : plain)

section Status

variable {μ : Type} {b b' : Body μ} {wait : Option (Int × Option Nat)}
  {children children' : List ν} {plain : Prop}

theorem Status.ws_zero (h : Status b wait children plain)
    (hrun : b.state = .runnable) : b.waitState = 0 := by
  cases h with
  | runnable _ hws => exact hws
  | sleeping hst => rw [hst] at hrun; cases hrun
  | zombie hst => rw [hst] at hrun; cases hrun

theorem Status.childless (h : Status b wait children plain)
    (hz : b.state = .zombie) : children = [] := by
  cases h with
  | runnable hst => rw [hst] at hz; cases hz
  | sleeping hst => rw [hst] at hz; cases hz
  | zombie _ _ _ hch => exact hch

theorem Status.ws_child (h : Status b wait children plain)
    (hsleep : b.state = .sleeping) : b.waitState = wtChild := by
  cases h with
  | runnable hst => rw [hst] at hsleep; cases hsleep
  | sleeping _ hws => exact hws
  | zombie hst => rw [hst] at hsleep; cases hsleep

/-- Waking a process, and giving children to one that is not a zombie. -/
theorem Status.step (h : Status b wait children plain) (hmay : MayWake b b')
    (hch : b.state = .zombie → children' = children) :
    Status b' wait children' plain := by
  rcases hmay with rfl | ⟨rfl, -⟩
  · cases h with
    | runnable hst hws => exact .runnable hst hws
    | sleeping hst hws hwait => exact .sleeping hst hws hwait
    | zombie hst hws hwait hnil hplain =>
        exact .zombie hst hws hwait ((hch hst).trans hnil) hplain
  · exact .runnable rfl rfl

end Status

/-- What holds in every state of a run. -/
structure Inv (w : World A) (R : Roster ν) (init : ν) : Prop where
  tables : Tables w.kernel R ∅
  initproc : w.kernel.initproc = some init
  init_mem : init ∈ R.children R.idle
  noself : ∀ p ∈ R.members, p ∉ R.children p
  status : ∀ p ∈ R.members, Status (body w.kernel p) (w.waits p)
    (R.children p) (p ≠ R.idle ∧ p ≠ init)
  asleep : ∀ p ∈ R.members, ∀ pid store, w.waits p = some (pid, store) →
    (w.kernel.procs p).state = .sleeping →
    ∀ c ∈ R.children p, Awaited w.kernel pid c →
      (w.kernel.procs c).state ≠ .zombie
  waits_mem : ∀ p, w.waits p ≠ none → p ∈ R.members

namespace Inv

theorem init_procs (h : Inv w R init) : init ∈ R.procs := by
  obtain ⟨hmem, hne, -⟩ :=
    h.tables.family.child R.idle R.idle_mem init h.init_mem
  exact hmem.resolve_left hne

theorem init_ne (h : Inv w R init) : init ≠ R.idle :=
  (h.tables.family.child R.idle R.idle_mem init h.init_mem).2.1

theorem run_zero (h : Inv w R init) : ∀ p ∈ R.members,
    (w.kernel.procs p).state = .runnable →
      (w.kernel.procs p).waitState = 0 :=
  fun p hp hst => (h.status p hp).ws_zero hst

theorem childless (h : Inv w R init) : ∀ p ∈ R.members,
    (w.kernel.procs p).state = .zombie → R.children p = [] :=
  fun p hp hst => (h.status p hp).childless hst

/-- A process that runs is in the tables. -/
theorem runs_mem (h : Inv w R init) (hruns : Runs w.kernel p) :
    p ∈ R.members := by
  rcases hruns.listed with hidle | ⟨L, hring, hp⟩
  · rw [h.tables.idleproc] at hidle
    exact .inl (Option.some.inj hidle).symm
  · have heq := hring.unique h.tables.list
    have hcell : (.listLink p : Entry ν) ∈ R.procs.map .listLink :=
      heq ▸ List.mem_map_of_mem hp
    obtain ⟨q, hq, hlink⟩ := List.mem_map.1 hcell
    exact .inr (Entry.listLink.inj hlink ▸ hq)

-- ======================================================= other steps

/-- A step that wakes processes at most, and leaves the family alone. -/
theorem calm (h : Inv w R init) (htab : Tables s' R ∅)
    (hinit : s'.initproc = w.kernel.initproc)
    (hpid : ∀ q ∈ R.members, (s'.procs q).pid = (w.kernel.procs q).pid)
    (hmay : ∀ q ∈ R.members,
      Status (body s' q) (w.waits q) (R.children q)
        (q ≠ R.idle ∧ q ≠ init))
    (hsleep : ∀ q ∈ R.members, (s'.procs q).state = .sleeping →
      (w.kernel.procs q).state = .sleeping)
    (hzombie : ∀ q ∈ R.members, (s'.procs q).state = .zombie →
      (w.kernel.procs q).state = .zombie) :
    Inv { w with kernel := s' } R init where
  tables := htab
  initproc := hinit.trans h.initproc
  init_mem := h.init_mem
  noself := h.noself
  status := hmay
  asleep p hp pid store hwait hst c hc haw hz := by
    have hcm := (h.tables.family.child p hp c hc).1
    have haw' : Awaited w.kernel pid c :=
      haw.imp_right fun heq => (hpid c hcm).symm.trans heq
    exact h.asleep p hp pid store hwait (hsleep p hp hst) c hc haw'
      (hzombie c hcm hz)
  waits_mem := h.waits_mem

/-- The end of a do_wait that leaves the kernel as it is. -/
theorem finish (h : Inv w R init)
    (hst : (w.kernel.procs p).state = .runnable) :
    Inv { w with waits := Function.update w.waits p none } R init where
  tables := h.tables
  initproc := h.initproc
  init_mem := h.init_mem
  noself := h.noself
  status q hq := by
    show Status _ (Function.update w.waits p none q) _ _
    rw [Function.update_apply]
    split
    case isTrue hqp =>
        have hstatus := h.status q hq
        rw [hqp] at hstatus ⊢
        exact .runnable hst (hstatus.ws_zero hst)
    case isFalse => exact h.status q hq
  asleep q hq pid store hwait := by
    have hwait' : Function.update w.waits p none q = some (pid, store) :=
      hwait
    rw [Function.update_apply] at hwait'
    split at hwait'
    case isTrue => cases hwait'
    case isFalse => exact h.asleep q hq pid store hwait'
  waits_mem q hwait := by
    have hwait' : Function.update w.waits p none q ≠ none := hwait
    rw [Function.update_apply] at hwait'
    split at hwait'
    case isTrue => exact absurd rfl hwait'
    case isFalse => exact h.waits_mem q hwait'

-- ============================================================== fork

theorem fork {ret : Int} {S : Set ν} (h : Inv w R init)
    (hp : p ∈ R.members) (hst : (w.kernel.procs p).state = .runnable)
    (hS : R.members ⊆ S) (hf : Forked w.kernel s' R S p ret) :
    ∃ R', Inv { w with kernel := s' } R' init
      ∧ (∀ c ∈ R.members, c ∈ R'.members ∧ body s' c = body w.kernel c)
      ∧ ∀ c ∈ R'.members, c ∈ R.members
        ∨ (s'.procs c).state = .runnable ∧ c ∉ S := by
  cases hf with
  | failed hret hframe hlive =>
      have hb : ∀ q ∈ R.members, body s' q = body w.kernel q :=
        fun q hq => hframe.body hq
      refine ⟨R, ?_, fun c hc => ⟨hc, hb c hc⟩, fun c hc => .inl hc⟩
      refine h.calm (h.tables.congr hframe.sameTables (hS.trans hlive))
        hframe.vars.initproc (fun q hq => congrArg Body.pid (hb q hq))
        (fun q hq => ?_)
        (fun q hq hs => (congrArg Body.state (hb q hq)).symm.trans hs)
        (fun q hq hs => (congrArg Body.state (hb q hq)).symm.trans hs)
      rw [hb q hq]
      exact h.status q hq
  | child new i hnew hlive htab hb hstate hws hpid hinit =>
      have hmem : ∀ q, q ∈ (R.join new p i).members ↔
          q = new ∨ q ∈ R.members := by
        intro q
        rw [Roster.join_members]
        exact Set.mem_insert_iff
      have hne : ∀ q ∈ R.members, q ≠ new :=
        fun q hq heq => hnew (heq ▸ hS hq)
      have hchnew : (R.join new p i).children new = [] :=
        (Function.update_of_ne (hne p hp).symm _ _).trans
          (Function.update_self _ _ _)
      have hchp : (R.join new p i).children p = new :: R.children p :=
        Function.update_self _ _ _
      have hch : ∀ q ∈ R.members, q ≠ p →
          (R.join new p i).children q = R.children q := fun q hq hqp =>
        (Function.update_of_ne hqp _ _).trans
          (Function.update_of_ne (hne q hq) _ _)
      have hstp : (s'.procs p).state = .runnable :=
        (congrArg Body.state (hb p hp)).trans hst
      refine ⟨R.join new p i, ?_, fun c hc => ⟨(hmem c).2 (.inr hc), hb c hc⟩,
        fun c hc => ?_⟩
      · constructor
        case tables => exact htab
        case initproc => exact hinit.trans h.initproc
        case init_mem =>
            show init ∈ (R.join new p i).children R.idle
            by_cases hip : R.idle = p
            · rw [hip, hchp, ← hip]
              exact List.mem_cons_of_mem new h.init_mem
            · rw [hch R.idle R.idle_mem hip]
              exact h.init_mem
        case noself =>
            intro q hq
            rcases (hmem q).1 hq with rfl | hq
            · rw [hchnew]
              exact List.not_mem_nil
            · by_cases hqp : q = p
              · rw [hqp, hchp]
                intro hin
                rcases List.mem_cons.1 hin with heq | hin
                · exact hne p hp heq
                · exact h.noself p hp hin
              · rw [hch q hq hqp]
                exact h.noself q hq
        case status =>
            intro q hq
            rcases (hmem q).1 hq with rfl | hq
            · exact .runnable hstate hws
            · refine (h.status q hq).step (.inl (hb q hq)) fun hz => ?_
              refine hch q hq fun hqp => ?_
              have hzq : (w.kernel.procs q).state = .zombie := hz
              rw [hqp, hst] at hzq
              cases hzq
        case asleep =>
            intro q hq pid store hwait hsleep c hc haw hz
            rcases (hmem q).1 hq with rfl | hq
            · rw [hchnew] at hc
              cases hc
            · have hqp : q ≠ p := by
                intro heq
                have hsl : (s'.procs q).state = .sleeping := hsleep
                rw [heq, hstp] at hsl
                cases hsl
              rw [hch q hq hqp] at hc
              have hcm := (h.tables.family.child q hq c hc).1
              have hbc := hb c hcm
              have hbq := hb q hq
              refine h.asleep q hq pid store hwait
                ((congrArg Body.state hbq).symm.trans hsleep) c hc ?_
                ((congrArg Body.state hbc).symm.trans hz)
              exact haw.imp_right fun heq =>
                (congrArg Body.pid hbc).symm.trans heq
        case waits_mem =>
            exact fun q hwait => (hmem q).2 (.inr (h.waits_mem q hwait))
      · rcases (hmem c).1 hc with rfl | hc
        · exact .inr ⟨hstate, hnew⟩
        · exact .inl hc

-- ============================================================== exit

theorem exit {parent : ν} {code : Int} (h : Inv w R init) (hp : p ∈ R.procs)
    (hst : (w.kernel.procs p).state = .runnable) (hpi : p ≠ init)
    (hparent : p ∈ R.children parent) (hpm : parent ∈ R.members)
    (hx : Exited w.kernel s' R p parent init code) :
    Inv { kernel := s', waits := Function.update w.waits p none }
      (R.reparent p init) init := by
  have hidle : R.idle ≠ p := fun heq => h.tables.idle_notMem (heq ▸ hp)
  have hchp : (R.reparent p init).children p = [] :=
    (Function.update_of_ne hpi _ _).trans (Function.update_self _ _ _)
  have hchi : (R.reparent p init).children init
      = (R.children p).reverse ++ R.children init := Function.update_self _ _ _
  have hch : ∀ q, q ≠ p → q ≠ init →
      (R.reparent p init).children q = R.children q := fun q hqp hqi =>
    (Function.update_of_ne hqi _ _).trans (Function.update_of_ne hqp _ _)
  have hwsp : (w.kernel.procs p).waitState = 0 :=
    h.run_zero p (.inr hp) hst
  -- who is asleep now was asleep, and is not the parent
  have hsleep : ∀ q ∈ R.members, (s'.procs q).state = .sleeping →
      q ≠ p ∧ q ≠ parent ∧ (s'.procs q).waitState = wtChild
        ∧ body s' q = body w.kernel q := by
    intro q hq hs
    have hqp : q ≠ p := by
      intro heq
      rw [heq] at hs
      have hz : (s'.procs p).state = .zombie := congrArg Body.state hx.self
      rw [hz] at hs
      cases hs
    rcases hx.other q hqp with hsame | hwoke
    · have hsq : (w.kernel.procs q).state = .sleeping :=
        (congrArg Body.state hsame).symm.trans hs
      have hws : (s'.procs q).waitState = wtChild :=
        (congrArg Body.waitState hsame).trans ((h.status q hq).ws_child hsq)
      exact ⟨hqp, fun heq => hx.parent (heq ▸ hws), hws, hsame⟩
    · have hr : (s'.procs q).state = .runnable :=
        congrArg Body.state hwoke.1
      rw [hr] at hs
      cases hs
  -- a child that is a zombie now was one, or is the process that exits
  have hzombie : ∀ c, c ≠ p → (s'.procs c).state = .zombie →
      (w.kernel.procs c).state = .zombie := by
    intro c hcp hz
    rcases hx.other c hcp with hsame | hwoke
    · exact (congrArg Body.state hsame).symm.trans hz
    · have hr : (s'.procs c).state = .runnable :=
        congrArg Body.state hwoke.1
      rw [hr] at hz
      cases hz
  have hpid : ∀ c, (s'.procs c).pid = (w.kernel.procs c).pid := by
    intro c
    by_cases hcp : c = p
    · rw [hcp]
      exact congrArg Body.pid hx.self
    · rcases hx.other c hcp with hsame | hwoke
      · exact congrArg Body.pid hsame
      · exact congrArg Body.pid hwoke.1
  have hwait : ∀ q, q ≠ p → Function.update w.waits p none q = w.waits q :=
    fun q hqp => Function.update_of_ne hqp _ _
  constructor
  case tables => exact hx.tables
  case initproc => exact hx.initproc.trans h.initproc
  case init_mem =>
      show init ∈ (R.reparent p init).children R.idle
      rw [hch R.idle hidle h.init_ne.symm]
      exact h.init_mem
  case noself =>
      intro q hq
      by_cases hqp : q = p
      · rw [hqp, hchp]
        exact List.not_mem_nil
      · by_cases hqi : q = init
        · rw [hqi, hchi, List.mem_append, List.mem_reverse]
          rintro (hin | hin)
          · have heq := h.tables.family.parent_unique (.inr hp) R.idle_mem hin
              h.init_mem
            exact hidle heq.symm
          · exact h.noself init (.inr h.init_procs) hin
        · rw [hch q hqp hqi]
          exact h.noself q hq
  case status =>
      intro q hq
      show Status _ (Function.update w.waits p none q) _ _
      by_cases hqp : q = p
      · rw [hqp, hchp, Function.update_self, hx.self]
        exact .zombie rfl hwsp rfl rfl ⟨hidle.symm, hpi⟩
      · rw [hwait q hqp]
        refine (h.status q hq).step (hx.other q hqp) fun hz => ?_
        have hqi : q ≠ init := by
          cases h.status q hq with
          | runnable hs => rw [hs] at hz; cases hz
          | sleeping hs => rw [hs] at hz; cases hz
          | zombie _ _ _ _ hplain => exact hplain.2
        exact hch q hqp hqi
  case asleep =>
      intro q hq pid store hw hs c hc haw hz
      obtain ⟨hqp, hqpar, hws, hsame⟩ := hsleep q hq hs
      have hw' : Function.update w.waits p none q = some (pid, store) := hw
      rw [hwait q hqp] at hw'
      have haw' : Awaited w.kernel pid c :=
        haw.imp_right fun heq => (hpid c).symm.trans heq
      have hsq : (w.kernel.procs q).state = .sleeping :=
        (congrArg Body.state hsame).symm.trans hs
      have hold : c ∈ R.children q → False := by
        intro hcq
        have hcp : c ≠ p := by
          intro heq
          rw [heq] at hcq
          exact hqpar (h.tables.family.parent_unique hq hpm hcq hparent)
        exact h.asleep q hq pid store hw' hsq c hcq haw' (hzombie c hcp hz)
      by_cases hqi : q = init
      · have hc' : c ∈ (R.reparent p init).children q := hc
        rw [hqi, hchi, List.mem_append, List.mem_reverse] at hc'
        rcases hc' with hc' | hc'
        · have hcp : c ≠ p := fun heq => h.noself p (.inr hp) (heq ▸ hc')
          rw [hqi] at hws
          exact hx.adopted hws c hc' hcp (hzombie c hcp hz)
        · rw [← hqi] at hc'
          exact hold hc'
      · have hc' : c ∈ (R.reparent p init).children q := hc
        rw [hch q hqp hqi] at hc'
        exact hold hc'
  case waits_mem =>
      intro q hw
      have hw' : Function.update w.waits p none q ≠ none := hw
      rw [Function.update_apply] at hw'
      split at hw'
      case isTrue => exact absurd rfl hw'
      case isFalse => exact h.waits_mem q hw'

-- ============================================================== wait

/-- A child is reaped. -/
theorem reap {i : BitVec 32} (h : Inv w R init) (hp : p ∈ R.members)
    (hproc : proc ∈ R.children p) (hz : (w.kernel.procs proc).state = .zombie)
    (hinit : some proc ≠ w.kernel.initproc)
    (htab : Tables s' (R.part proc p i) ∅) (hb : body s' = body w.kernel)
    (hvar : s'.initproc = w.kernel.initproc) :
    Inv { w with kernel := s' } (R.part proc p i) init := by
  obtain ⟨hcm, hcroot, -⟩ := h.tables.family.child p hp proc hproc
  have hcp : proc ∈ R.procs := hcm.resolve_left hcroot
  have hmem : (R.part proc p i).members = R.members \ {proc} :=
    h.tables.part_members hcp i
  have hchp : (R.part proc p i).children p = (R.children p).erase proc :=
    Function.update_self _ _ _
  have hch : ∀ q, q ≠ p → (R.part proc p i).children q = R.children q :=
    fun q hqp => Function.update_of_ne hqp _ _
  have hsub : ∀ q, ∀ c ∈ (R.part proc p i).children q, c ∈ R.children q := by
    intro q c hc
    by_cases hqp : q = p
    · rw [hqp, hchp] at hc
      rw [hqp]
      exact List.mem_of_mem_erase hc
    · rw [hch q hqp] at hc
      exact hc
  have hbq : ∀ q, body s' q = body w.kernel q := fun q => congrFun hb q
  constructor
  case tables => exact htab
  case initproc => exact hvar.trans h.initproc
  case init_mem =>
      show init ∈ (R.part proc p i).children R.idle
      by_cases hip : R.idle = p
      · rw [hip, hchp, ← hip]
        have hne : init ≠ proc := by
          intro heq
          rw [h.initproc, heq] at hinit
          exact hinit rfl
        exact (List.mem_erase_of_ne hne).2 h.init_mem
      · rw [hch R.idle hip]
        exact h.init_mem
  case noself =>
      intro q hq hin
      rw [hmem] at hq
      exact h.noself q hq.1 (hsub q q hin)
  case status =>
      intro q hq
      rw [hmem] at hq
      refine (h.status q hq.1).step (.inl (hbq q)) fun hzq => ?_
      have hnil : R.children q = [] := h.childless q hq.1 hzq
      have hqp : q ≠ p := by
        intro heq
        rw [heq] at hnil
        rw [hnil] at hproc
        cases hproc
      exact hch q hqp
  case asleep =>
      intro q hq pid store hw hs c hc haw hzc
      rw [hmem] at hq
      refine h.asleep q hq.1 pid store hw
        ((congrArg Body.state (hbq q)).symm.trans hs) c (hsub q c hc) ?_
        ((congrArg Body.state (hbq c)).symm.trans hzc)
      exact haw.imp_right fun heq => (congrArg Body.pid (hbq c)).symm.trans heq
  case waits_mem =>
      intro q hw
      rw [hmem]
      refine ⟨h.waits_mem q hw, fun heq => hw ?_⟩
      rw [Set.mem_singleton_iff.1 heq]
      cases h.status proc hcm with
      | runnable hs => have hs' : (w.kernel.procs proc).state = _ := hs
                       rw [hz] at hs'
                       cases hs'
      | sleeping hs => have hs' : (w.kernel.procs proc).state = _ := hs
                       rw [hz] at hs'
                       cases hs'
      | zombie _ _ hwait => exact hwait

/-- A process goes to sleep in do_wait. -/
theorem sleep {pid : Int} {store : Option Nat} (h : Inv w R init)
    (hp : p ∈ R.members)
    (hnone : ∀ c ∈ R.children p, Awaited w.kernel pid c →
      (w.kernel.procs c).state ≠ .zombie)
    (htab : Tables s' R ∅)
    (hb : body s' = Function.update (body w.kernel) p
      { body w.kernel p with state := .sleeping, waitState := wtChild })
    (hvar : s'.initproc = w.kernel.initproc) :
    Inv { kernel := s'
          waits := Function.update w.waits p (some (pid, store)) } R init := by
  have hself : body s' p = { body w.kernel p with
      state := .sleeping, waitState := wtChild } := by
    rw [hb, Function.update_self]
  have hbq : ∀ q, q ≠ p → body s' q = body w.kernel q := by
    intro q hqp
    rw [hb, Function.update_of_ne hqp]
  have hpid : ∀ c, (s'.procs c).pid = (w.kernel.procs c).pid := by
    intro c
    by_cases hcp : c = p
    · rw [hcp]
      exact congrArg Body.pid hself
    · exact congrArg Body.pid (hbq c hcp)
  have hzombie : ∀ c, (s'.procs c).state = .zombie →
      (w.kernel.procs c).state = .zombie := by
    intro c hz
    by_cases hcp : c = p
    · have hs : (s'.procs p).state = .sleeping := congrArg Body.state hself
      rw [hcp, hs] at hz
      cases hz
    · exact (congrArg Body.state (hbq c hcp)).symm.trans hz
  constructor
  case tables => exact htab
  case initproc => exact hvar.trans h.initproc
  case init_mem => exact h.init_mem
  case noself => exact h.noself
  case status =>
      intro q hq
      show Status _ (Function.update w.waits p _ q) _ _
      by_cases hqp : q = p
      · rw [hqp, Function.update_self, hself]
        exact .sleeping rfl rfl (fun h => by cases h)
      · rw [Function.update_of_ne hqp, hbq q hqp]
        exact h.status q hq
  case asleep =>
      intro q hq pid' store' hw hs c hc haw hz
      have haw' : Awaited w.kernel pid' c :=
        haw.imp_right fun heq => (hpid c).symm.trans heq
      have hw' : Function.update w.waits p (some (pid, store)) q
          = some (pid', store') := hw
      by_cases hqp : q = p
      · rw [hqp, Function.update_self] at hw'
        cases hw'
        rw [hqp] at hc
        exact hnone c hc haw' (hzombie c hz)
      · rw [Function.update_of_ne hqp] at hw'
        exact h.asleep q hq pid' store' hw'
          ((congrArg Body.state (hbq q hqp)).symm.trans hs) c hc haw'
          (hzombie c hz)
  case waits_mem =>
      intro q hw
      have hw' : Function.update w.waits p (some (pid, store)) q ≠ none := hw
      by_cases hqp : q = p
      · exact hqp ▸ hp
      · rw [Function.update_of_ne hqp] at hw'
        exact h.waits_mem q hw'

end Inv

end Ucore.Process
