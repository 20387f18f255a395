/-
Runs of processes: in every state reached the tables agree with each
other, a process asleep in do_wait has no zombie among the children it
waits for, and each exit is reaped at most once, with its own code.
-/
import Ucore.Process.Proofs.Status

namespace Ucore.Process

open Ring

variable {ν : Type} [DecidableEq ν] {A : Memory ν} {s s' : State A}
  {R : Roster ν} {w w' : World A} {p q c proc current init : ν}
  {l : Label ν} {ls : List (Label ν)}

-- =================================================== exits and reaps

/-- The process at `c` is a zombie in the tables. -/
def Zombie (w : World A) (R : Roster ν) (c : ν) : Prop :=
  c ∈ R.members ∧ (w.kernel.procs c).state = .zombie

/-- What a step does to the process at `c`: it exits, it is reaped, or
neither. -/
inductive Moves (w : World A) (R : Roster ν) (w' : World A) (R' : Roster ν)
    (l : Label ν) (c : ν) : Prop
  | exit (code : Int) (hexits : l.exits c = some code)
      (hreaps : l.reaps c = none) (hbefore : ¬ Zombie w R c)
      (hafter : Zombie w' R' c)
      (hcode : (w'.kernel.procs c).exitCode = code)
  | reap (r : Option Int) (hexits : l.exits c = none)
      (hreaps : l.reaps c = some r) (hbefore : Zombie w R c)
      (hcode : r = none ∨ r = some (w.kernel.procs c).exitCode)
      (hafter : ¬ Zombie w' R' c)
  | stay (hexits : l.exits c = none) (hreaps : l.reaps c = none)
      (hsame : Zombie w' R' c ↔ Zombie w R c)
      (hcode : Zombie w R c →
        (w'.kernel.procs c).exitCode = (w.kernel.procs c).exitCode)

/-- An allocated block that is no process stays so. -/
def Kept (w : World A) (R : Roster ν) (w' : World A) (R' : Roster ν) : Prop :=
  ∀ b ∈ A.live w.kernel.mem, b ∉ R.members →
    b ∈ A.live w'.kernel.mem ∧ b ∉ R'.members

/-- Nothing of the process at `c` changes that a zombie keeps. -/
theorem Moves.of_body {R' : Roster ν} (hexits : l.exits c = none)
    (hreaps : l.reaps c = none) (hmem : c ∈ R'.members ↔ c ∈ R.members)
    (hst : c ∈ R.members → ((w'.kernel.procs c).state = .zombie ↔
      (w.kernel.procs c).state = .zombie))
    (hcode : c ∈ R.members →
      (w'.kernel.procs c).exitCode = (w.kernel.procs c).exitCode) :
    Moves w R w' R' l c := by
  refine .stay hexits hreaps ?_ fun hz => hcode hz.1
  constructor
  · intro hz
    have hc := hmem.1 hz.1
    exact ⟨hc, (hst hc).1 hz.2⟩
  · intro hz
    exact ⟨hmem.2 hz.1, (hst hz.1).2 hz.2⟩

theorem MayWake.zombie_iff {μ : Type} {b b' : Body μ} (h : MayWake b b') :
    (b'.state = .zombie ↔ b.state = .zombie) ∧ b'.exitCode = b.exitCode := by
  rcases h with rfl | ⟨rfl, hz⟩
  · exact ⟨Iff.rfl, rfl⟩
  · refine ⟨⟨fun h => ?_, fun h => absurd h hz⟩, rfl⟩
    have hr : (ProcState.runnable) = .zombie := h
    cases hr

/-- What a do_exit has done that returned. -/
theorem Inv.exited {fuel : Nat} {code : Int} {u : Unit} (h : Inv w R init)
    (hruns : Runs w.kernel p)
    (hcall : doExit fuel p code w.kernel = some (u, s')) :
    p ∈ R.procs ∧ p ≠ init ∧ ∃ parent ∈ R.members,
      p ∈ R.children parent ∧ Exited w.kernel s' R p parent init code := by
  have hp := h.runs_mem hruns
  have hne : p ≠ R.idle := by
    intro heq
    simp only [doExit, Call.bind_eq_some, Call.get_eq_some,
      Call.assert_eq_some] at hcall
    obtain ⟨s₁, s₂, ⟨rfl, rfl⟩, u₁, s₃, ⟨hidle, -⟩, -⟩ := hcall
    rw [h.tables.idleproc, heq] at hidle
    exact hidle rfl
  have hpp : p ∈ R.procs := hp.resolve_left hne
  obtain ⟨parent, hpm, hparent⟩ := h.tables.family.parent p hp hne
  obtain ⟨hpi, hx⟩ := doExit_spec h.tables hpp h.initproc h.init_procs hparent
    hpm (h.run_zero p hp hruns.state) h.run_zero h.init_mem hcall
  exact ⟨hpp, hpi, parent, hpm, hparent, hx⟩

/-- A do_exit, called or reached in do_wait. -/
theorem Inv.step_exit {fuel : Nat} {code : Int} {u : Unit}
    (h : Inv w R init) (hruns : Runs w.kernel p)
    (hcall : doExit fuel p code w.kernel = some (u, s'))
    (hexits : ∀ c, l.exits c = if p = c then some code else none)
    (hreaps : ∀ c, l.reaps c = none) :
    ∃ R', Inv { kernel := s', waits := Function.update w.waits p none } R' init
      ∧ Kept w R { kernel := s', waits := Function.update w.waits p none } R'
      ∧ ∀ c, Moves w R
        { kernel := s', waits := Function.update w.waits p none } R' l c := by
  have hp := h.runs_mem hruns
  obtain ⟨hpp, hpi, parent, hpm, hparent, hx⟩ := h.exited hruns hcall
  refine ⟨R.reparent p init, h.exit hpp hruns.state hpi hparent hpm hx,
    fun b hb hbm => ⟨?_, hbm⟩, fun c => ?_⟩
  · show b ∈ A.live s'.mem
    rw [hx.live]
    exact hb
  by_cases hcp : p = c
  · refine .exit code (by rw [hexits, if_pos hcp]) (hreaps c) ?_ ?_ ?_
    · intro hz
      have hst := hruns.state
      rw [hcp, hz.2] at hst
      cases hst
    · rw [← hcp]
      exact ⟨hp, congrArg Body.state hx.self⟩
    · rw [← hcp]
      exact congrArg Body.exitCode hx.self
  · have hiff := (hx.other c (Ne.symm hcp)).zombie_iff
    exact .of_body (by rw [hexits, if_neg hcp]) (hreaps c) Iff.rfl
      (fun _ => hiff.1) (fun _ => hiff.2)

/-- A stretch of do_wait, from its start or after `schedule`. -/
theorem Inv.step_wait {pid : Int} {store : Option Nat} {r : Waited ν}
    (h : Inv w R init) (hruns : Runs w.kernel p)
    (hspec : WaitSpec w.kernel s' R p pid store r)
    (hwaits : w.waits p = none ∨ w.waits p = some (pid, store))
    (hexits : ∀ c, l.exits c = none)
    (hreaps : ∀ c, l.reaps c = match r with
      | .reaped proc code => if proc = c then some code else none
      | _ => none) :
    ∃ R', Inv ⟨s', Function.update w.waits p
        (if r = .slept then some (pid, store) else none)⟩ R' init
      ∧ Kept w R ⟨s', Function.update w.waits p
        (if r = .slept then some (pid, store) else none)⟩ R'
      ∧ ∀ c, Moves w R ⟨s', Function.update w.waits p
        (if r = .slept then some (pid, store) else none)⟩ R' l c := by
  have hp := h.runs_mem hruns
  cases hspec with
  | reaped proc i hchild hz haw hidle hinit htab hbody hvar hlive =>
      have hreap := h.reap hp hchild hz hinit htab hbody hvar
      have hbp : (s'.procs p).state = .runnable :=
        (congrArg Body.state (congrFun hbody p)).trans hruns.state
      obtain ⟨hcm, hcroot, -⟩ := h.tables.family.child p hp proc hchild
      have hmem : (R.part proc p i).members = R.members \ {proc} :=
        h.tables.part_members (hcm.resolve_left hcroot) i
      refine ⟨R.part proc p i, hreap.finish hbp, fun b hb hbm => ⟨?_, ?_⟩,
        fun c => ?_⟩
      · show b ∈ A.live s'.mem
        rw [hlive]
        exact ⟨hb, fun heq => hbm (Set.mem_singleton_iff.1 heq ▸ hcm)⟩
      · rw [hmem]
        exact fun hin => hbm hin.1
      by_cases hc : proc = c
      · refine .reap _ (hexits c) (by rw [hreaps]; exact if_pos hc)
          (hc ▸ ⟨hcm, hz⟩) ?_ ?_
        · cases store with
          | none => exact .inl rfl
          | some a => exact .inr (by rw [hc]; rfl)
        · intro hzc
          have hcmem := hzc.1
          rw [hmem] at hcmem
          exact hcmem.2 hc.symm
      · refine .of_body (hexits c) (by rw [hreaps]; exact if_neg hc) ?_
          (fun _ => ?_)
          (fun _ => congrArg Body.exitCode (congrFun hbody c))
        · rw [hmem]
          exact ⟨fun hcm => hcm.1, fun hcm => ⟨hcm, Ne.symm hc⟩⟩
        · have hst : (s'.procs c).state = (w.kernel.procs c).state :=
            congrArg Body.state (congrFun hbody c)
          rw [← hst]
  | badProc hsame =>
      rw [hsame]
      exact ⟨R, h.finish hruns.state, fun b hb hbm => ⟨hb, hbm⟩, fun c =>
        .of_body (hexits c) (hreaps c) Iff.rfl (fun _ => Iff.rfl)
          (fun _ => rfl)⟩
  | inval hsame =>
      rw [hsame]
      exact ⟨R, h.finish hruns.state, fun b hb hbm => ⟨hb, hbm⟩, fun c =>
        .of_body (hexits c) (hreaps c) Iff.rfl (fun _ => Iff.rfl)
          (fun _ => rfl)⟩
  | slept hnone htab hbody hvar hmem =>
      refine ⟨R, h.sleep hp hnone htab hbody hvar, fun b hb hbm => ⟨?_, hbm⟩,
        fun c => ?_⟩
      · show b ∈ A.live s'.mem
        rw [hmem]
        exact hb
      refine .of_body (hexits c) (hreaps c) Iff.rfl (fun _ => ?_) (fun _ => ?_)
      · by_cases hc : c = p
        · have hs : (s'.procs p).state = .sleeping := by
            have hb := congrFun hbody p
            rw [Function.update_self] at hb
            exact congrArg Body.state hb
          rw [hc]
          show (s'.procs p).state = .zombie ↔ _
          rw [hs, hruns.state]
          constructor <;> rintro ⟨⟩
        · have hb := congrFun hbody c
          rw [Function.update_of_ne hc] at hb
          have hst : (s'.procs c).state = (w.kernel.procs c).state :=
            congrArg Body.state hb
          rw [← hst]
      · have hb := congrFun hbody c
        rw [Function.update_apply] at hb
        split at hb
        case isTrue hc =>
            rw [hc] at hb ⊢
            exact congrArg Body.exitCode hb
        case isFalse => exact congrArg Body.exitCode hb

/-- One step keeps the invariant, and does one thing to each process. -/
theorem Inv.step (h : Inv w R init) (hs : Step w l w') :
    ∃ R', Inv w' R' init ∧ Kept w R w' R' ∧ ∀ c, Moves w R w' R' l c := by
  cases hs with
  | fork hruns hpc hcall =>
      have hp := h.runs_mem hruns
      have hforked := doFork_spec h.tables hp h.tables.live (le_refl _) hcall
      obtain ⟨R', hinv, hkeep, hnew⟩ := h.fork hp hruns.state h.tables.live
        hforked
      refine ⟨R', hinv, fun b hb hbm => ⟨hforked.live hb, fun hin => ?_⟩,
        fun c => .stay rfl rfl ⟨fun hz => ?_, fun hz => ?_⟩
          fun hz => congrArg Body.exitCode (hkeep c hz.1).2⟩
      · rcases hnew b hin with hin | hin
        · exact hbm hin
        · exact hin.2 hb
      · rcases hnew c hz.1 with hc | ⟨hrun, -⟩
        · exact ⟨hc, (congrArg Body.state (hkeep c hc).2).symm.trans hz.2⟩
        · have hst := hz.2
          rw [hrun] at hst
          cases hst
      · exact ⟨(hkeep c hz.1).1,
          (congrArg Body.state (hkeep c hz.1).2).trans hz.2⟩
  | @exit p fuel code u s' hruns hpc hcall =>
      have hgo := h.step_exit (l := .exit p code) hruns hcall
        (fun _ => rfl) (fun _ => rfl)
      rw [Function.update_eq_self_iff.2 hpc.symm] at hgo
      exact hgo
  | @wait p fuel pid store r s' hruns hpc hcall =>
      have hspec := doWait_spec h.tables (h.runs_mem hruns) h.childless hcall
      have hgo := h.step_wait (l := .wait p pid store r) hruns hspec
        (.inl hpc) (fun _ => rfl) (fun c => by cases hspec <;> rfl)
      have hwaits : Function.update w.waits p
            (if r = .slept then some (pid, store) else none)
          = if r = .slept then Function.update w.waits p (some (pid, store))
            else w.waits := by
        split
        case isTrue => rfl
        case isFalse => exact Function.update_eq_self_iff.2 hpc.symm
      rw [hwaits] at hgo
      exact hgo
  | @resume p fuel pid store r s' hruns hpc hcall =>
      simp only [waitResume, Call.bind_eq_some, Call.get_eq_some] at hcall
      obtain ⟨s₁, s₂, ⟨rfl, rfl⟩, hcall⟩ := hcall
      split at hcall
      case isTrue =>
          simp only [Call.bind_eq_some, Call.pure_eq_some] at hcall
          obtain ⟨u, s₃, hexit, rfl, rfl⟩ := hcall
          exact h.step_exit (l := .resume p .killed) hruns hexit
            (fun _ => rfl) (fun _ => rfl)
      case isFalse =>
          have hspec := waitRepeat_spec h.tables (h.runs_mem hruns)
            h.childless hcall
          have hgo := h.step_wait (l := .resume p r) hruns hspec (.inr hpc)
            (fun c => by cases hspec <;> rfl)
            (fun c => by cases hspec <;> rfl)
          have hwaits : Function.update w.waits p
                (if r = .slept then some (pid, store) else none)
              = if r = .slept then w.waits
                else Function.update w.waits p none := by
            split
            case isTrue => exact Function.update_eq_self_iff.2 hpc.symm
            case isFalse => rfl
          rw [hwaits] at hgo
          exact hgo
  | kill hruns hpc hcall =>
      obtain ⟨htab, hvar, hmem, hmay⟩ := doKill_spec h.tables h.run_zero hcall
      refine ⟨R, h.calm htab hvar (fun q _ => ?_) (fun q hq => ?_)
        (fun q _ hst => ?_) (fun q _ hst => ?_),
        fun b hb hbm => ⟨hmem ▸ hb, hbm⟩, fun c => ?_⟩
      · rcases hmay q with hb | hb
        · exact congrArg Body.pid hb
        · exact congrArg Body.pid hb.1
      · refine Status.step ?_ (hmay q) fun _ => rfl
        cases h.status q hq with
        | runnable hst hws => exact .runnable hst hws
        | sleeping hst hws hwait => exact .sleeping hst hws hwait
        | zombie hst hws hwait hch hplain =>
            exact .zombie hst hws hwait hch hplain
      · rcases hmay q with hb | hb
        · exact (congrArg Body.state hb).symm.trans hst
        · have hr := congrArg Body.state hb.1
          cases hr.symm.trans hst
      · exact (hmay q).zombie_iff.1.1 hst
      · exact .of_body rfl rfl Iff.rfl (fun _ => (hmay c).zombie_iff.1)
          (fun _ => (hmay c).zombie_iff.2)
  | @user p mm mem hruns hpc hlive =>
      have hkin : kin (w.kernel.update p fun q => { q with mm })
          = kin w.kernel := kin_update _ _ rfl rfl rfl rfl
      have hproc : ∀ q, (w.kernel.update p fun q => { q with mm }).procs q
          = if q = p then { w.kernel.procs p with mm }
            else w.kernel.procs q := fun q => update_procs _ _ _ _
      have hst : ∀ q, ((w.kernel.update p fun q => { q with mm }).procs q).state
          = (w.kernel.procs q).state := by
        intro q
        rw [hproc q]
        split
        case isTrue hq => rw [hq]
        case isFalse => rfl
      have hpid : ∀ q, ((w.kernel.update p fun q => { q with mm }).procs q).pid
          = (w.kernel.procs q).pid := by
        intro q
        rw [hproc q]
        split
        case isTrue hq => rw [hq]
        case isFalse => rfl
      have htab : Tables { w.kernel.update p fun q => { q with mm } with mem }
          R ∅ := by
        have h₁ : Tables (w.kernel.update p fun q => { q with mm }) R ∅ :=
          h.tables.congr (sameTables_update _ hkin rfl) h.tables.live
        refine h₁.congr ((Frame.refl _ _).setMem mem).sameTables ?_
        intro q hq
        show q ∈ A.live mem
        rw [hlive]
        exact h.tables.live q hq
      refine ⟨R, h.calm htab rfl (fun q _ => hpid q) (fun q hq => ?_)
        (fun q _ hs => (hst q).symm.trans hs)
        (fun q _ hs => (hst q).symm.trans hs),
        fun b hb hbm => ⟨hlive ▸ hb, hbm⟩, fun c => ?_⟩
      · have hb : body { w.kernel.update p fun q => { q with mm } with mem } q
            = if q = p then { body w.kernel p with mm }
              else body w.kernel q := by
          unfold body
          rw [hproc q]
          split <;> rfl
        rw [hb]
        split
        case isTrue hqp =>
            rw [hqp] at hq ⊢
            cases h.status p hq with
            | runnable hs hws => exact .runnable hs hws
            | sleeping hs hws hwait => exact .sleeping hs hws hwait
            | zombie hs hws hwait hch hplain =>
                exact .zombie hs hws hwait hch hplain
        case isFalse => exact h.status q hq
      · refine .of_body rfl rfl Iff.rfl (fun _ => ?_) fun _ => ?_
        · show ((w.kernel.update p fun q => { q with mm }).procs c).state
            = _ ↔ _
          rw [hst c]
        · show ((w.kernel.update p fun q => { q with mm }).procs c).exitCode = _
          rw [hproc c]
          split
          case isTrue hc => rw [hc]
          case isFalse => rfl

-- ============================================================== runs

/-- The exits of the processes at `c` are those reaped, each with its code,
and one more if there is a zombie. -/
structure Ledger (w : World A) (R : Roster ν) (ls : List (Label ν)) (c : ν)
    (reaped : List Int) : Prop where
  codes : List.Forall₂ (fun stored code => stored = none ∨ stored = some code)
    (reaps c ls) reaped
  zombie : Zombie w R c →
    exits c ls = reaped ++ [(w.kernel.procs c).exitCode]
  other : ¬ Zombie w R c → exits c ls = reaped

theorem exits_append (c : ν) (ls : List (Label ν)) (l : Label ν) :
    exits c (ls ++ [l]) = exits c ls ++ (l.exits c).toList := by
  unfold exits
  rw [List.filterMap_append]
  congr 1

theorem reaps_append (c : ν) (ls : List (Label ν)) (l : Label ν) :
    reaps c (ls ++ [l]) = reaps c ls ++ (l.reaps c).toList := by
  unfold reaps
  rw [List.filterMap_append]
  congr 1

/-- One step keeps the account. -/
theorem Ledger.step {R' : Roster ν} {reaped : List Int}
    (h : Ledger w R ls c reaped) (hm : Moves w R w' R' l c) :
    ∃ reaped', Ledger w' R' (ls ++ [l]) c reaped' := by
  cases hm with
  | exit code hexits hreaps hbefore hafter hcode =>
      refine ⟨reaped, ?_, fun _ => ?_, fun hz => absurd hafter hz⟩
      · rw [reaps_append, hreaps, Option.toList_none, List.append_nil]
        exact h.codes
      · rw [exits_append, hexits, h.other hbefore, hcode]
        rfl
  | reap r hexits hreaps hbefore hcode hafter =>
      refine ⟨reaped ++ [(w.kernel.procs c).exitCode], ?_,
        fun hz => absurd hz hafter, fun _ => ?_⟩
      · rw [reaps_append, hreaps]
        exact List.rel_append h.codes (.cons hcode .nil)
      · rw [exits_append, hexits, Option.toList_none, List.append_nil]
        exact h.zombie hbefore
  | stay hexits hreaps hsame hcode =>
      refine ⟨reaped, ?_, fun hz => ?_, fun hz => ?_⟩
      · rw [reaps_append, hreaps, Option.toList_none, List.append_nil]
        exact h.codes
      · rw [exits_append, hexits, Option.toList_none, List.append_nil,
          hcode (hsame.1 hz)]
        exact h.zombie (hsame.1 hz)
      · rw [exits_append, hexits, Option.toList_none, List.append_nil]
        exact h.other fun hz' => hz (hsame.2 hz')

/-- A run keeps the invariant and the account. -/
theorem Inv.run {pre : List (Label ν)} (hrun : Run Step w ls w')
    (h : Inv w R init) (hledger : ∀ c, ∃ reaped, Ledger w R pre c reaped) :
    ∃ R', Inv w' R' init
      ∧ ∀ c, ∃ reaped, Ledger w' R' (pre ++ ls) c reaped := by
  induction hrun generalizing R pre with
  | nil w =>
      rw [List.append_nil]
      exact ⟨R, h, hledger⟩
  | @cons w t w' l ls hs _ ih =>
      obtain ⟨R', hinv, -, hmoves⟩ := h.step hs
      have hnext : ∀ c, ∃ reaped, Ledger t R' (pre ++ [l]) c reaped := by
        intro c
        obtain ⟨reaped, hl⟩ := hledger c
        exact hl.step (hmoves c)
      have hgo := ih hinv hnext
      rw [List.append_assoc] at hgo
      exact hgo

-- ========================================================= the start

/-- `list_init` of any entry leaves an empty list empty. -/
theorem listInit_ring_nil {m : Links (Entry ν)} {h e : Entry ν}
    (hr : IsRing m h []) : IsRing (listInit m e) h [] := by
  by_cases heh : e = h
  · rw [heh]
    exact listInit_ring m h
  · exact listInit_ring_of_notMem hr (by simpa using heh)

/-- The lists that proc_init initialises. -/
theorem hashInit_spec (m : Links (Entry ν)) (is : List Nat) :
    (∀ h, IsRing m h [] → IsRing (is.foldl (fun m i =>
        listInit m (.hashList (BitVec.ofNat 32 i))) m) h [])
    ∧ ∀ i ∈ is, IsRing (is.foldl (fun m i =>
        listInit m (.hashList (BitVec.ofNat 32 i))) m)
          (.hashList (BitVec.ofNat 32 i)) [] := by
  induction is generalizing m with
  | nil => exact ⟨fun h hr => hr, fun i hi => (by cases hi)⟩
  | cons j is ih =>
      obtain ⟨hkeep, hmade⟩ :=
        ih (listInit m (.hashList (BitVec.ofNat 32 j)))
      refine ⟨fun h hr => hkeep h (listInit_ring_nil hr), fun i hi => ?_⟩
      rcases List.mem_cons.1 hi with rfl | hi
      · exact hkeep _ (listInit_ring _ _)
      · exact hmade i hi

/-- The tables when only idle is there. -/
def Roster.alone (idle : ν) : Roster ν where
  idle := idle
  procs := []
  children _ := []
  chain _ := []

theorem Roster.alone_members {idle : ν} :
    (Roster.alone idle).members = {idle} := by
  ext p
  unfold Roster.members Roster.alone
  simp

/-- The tables before proc_init forks. -/
theorem tables_alone {idle : ν} (hidle : s.idleproc = some idle)
    (hlist : IsRing s.links .procList [])
    (hhash : ∀ i : BitVec 32, i.toNat < 1024 →
      IsRing s.links (.hashList i) [])
    (hcptr : (s.procs idle).cptr = none) (hn : s.nrProcess = 1)
    (hpid : (s.procs idle).pid = 0) (hlast : s.lastPid = maxPid)
    (hnext : s.nextSafe = maxPid) (hlive : idle ∈ A.live s.mem) :
    Tables s (.alone idle) ∅ where
  idleproc := hidle
  list := hlist
  hash := hhash
  mem_chain i p := ⟨fun h => (by cases h), fun h => (by cases h.1)⟩
  family := by
    rw [Roster.alone_members]
    refine ⟨fun p hp => ?_, fun _ _ => trivial, fun _ _ _ => trivial,
      fun _ _ => List.nodup_nil, fun p _ c hc => (by cases hc),
      fun c hc hne => absurd (Set.mem_singleton_iff.1 hc) hne⟩
    rw [Set.mem_singleton_iff.1 hp]
    exact hcptr
  idle_notMem := List.not_mem_nil
  nrProcess := hn
  pid_pos p hp := (by cases hp)
  pid_idle := hpid
  pid_inj p hp := (by cases hp)
  pids := by
    refine ⟨by rw [hlast]; decide, by rw [hnext], fun p hp => (by cases hp)⟩
  live p hp := by
    rw [Roster.alone_members] at hp
    rw [Set.mem_singleton_iff.1 hp]
    exact hlive

/-- After proc_init there are idle, and its child init. -/
theorem Start.inv (h : Start w) :
    ∃ R init, Inv w R init ∧ ∀ c, ¬ Zombie w R c := by
  obtain ⟨⟨s, fuel, bootstack, hn, hlast, hnext, hidle, hinit, hcall⟩,
    hwaits⟩ := h
  simp only [procInit, Process.update, Call.bind_eq_some, Call.modify_eq_some,
    Call.ofOption_eq_some, Call.assert_eq_some, Call.get_eq_some] at hcall
  obtain ⟨-, s₁, rfl, -, s₂, hs₂, o, s₃, halloc, idle, s₄, ⟨hidle₄, rfl⟩, -,
    s₅, rfl, -, s₆, hs₆, -, s₇, hs₇, pid, s₈, hfork, u, s₉, ⟨hpos, rfl⟩, r,
    s₁₀, hfind, -, s₁₁, hs₁₁, s₁₂, s₁₃, ⟨rfl, rfl⟩, init, s₁₄, ⟨hr, rfl⟩,
    hassert⟩ := hcall
  have hkernel : w.kernel = s₁₄ := hassert.2
  obtain ⟨hkeep, hmade⟩ := hashInit_spec
    (s.setLinks (listInit s.links .procList)).links (List.range 1024)
  have hlist := hkeep _ (listInit_ring s.links .procList)
  have hhash : ∀ i : BitVec 32, i.toNat < 1024 → _ := fun i hi =>
    hmade i.toNat (List.mem_range.2 hi)
  generalize List.foldl _ _ (List.range 1024) = m at hs₂ hlist hhash
  clear hkeep hmade
  -- idle
  obtain ⟨hframe, -, hnew⟩ := allocProc_spec (Set.empty_subset _) halloc
  obtain ⟨-, hlive, -, hws, hcptr⟩ := hnew idle hidle₄
  have hself : s₇.procs idle = { s₄.procs idle with
      pid := 0, state := .runnable, kstack := bootstack } := by
    rw [hs₇]
    show s₆.procs idle = _
    rw [hs₆, update_procs, if_pos rfl]
  have hlinks : s₇.links = s₂.links := by
    rw [hs₇, hs₆]
    exact hframe.links
  have hvars : s₇.lastPid = s₂.lastPid ∧ s₇.nextSafe = s₂.nextSafe
      ∧ s₇.nrProcess = s₂.nrProcess + 1 ∧ s₇.idleproc = some idle := by
    rw [hs₇, hs₆]
    exact ⟨hframe.vars.lastPid, hframe.vars.nextSafe,
      congrArg (· + 1) hframe.nrProcess, rfl⟩
  have hmem : s₇.mem = s₄.mem := by
    rw [hs₇, hs₆]
    rfl
  have htab : Tables s₇ (.alone idle) ∅ := by
    apply tables_alone hvars.2.2.2
    · rw [hlinks, hs₂]
      exact hlist
    · intro i hi
      have hring := hhash i hi
      rw [BitVec.ofNat_toNat, BitVec.setWidth_eq] at hring
      rw [hlinks, hs₂]
      exact hring
    · rw [hself]
      exact hcptr
    · rw [hvars.2.2.1, hs₂]
      show s.nrProcess + 1 = 1
      rw [hn]
      rfl
    · rw [hself]
    · rw [hvars.1, hs₂]
      exact hlast
    · rw [hvars.2.1, hs₂]
      exact hnext
    · rw [hmem]
      exact hlive
  -- init
  have hidleR : idle ∈ (Roster.alone idle).members := .inl rfl
  cases doFork_spec htab hidleR (le_refl _) htab.live hfork with
  | failed hret => omega
  | child proc i hnot _ htab' hb hst hwsp hpidp hvar =>
      obtain ⟨rfl, hfound⟩ := htab'.findProc hfind
      have hprocs : ((Roster.alone idle).join proc idle i).procs = [proc] := rfl
      have hinitp : init = proc := by
        have hmem := (hfound.1 init (by rw [← hr, hs₁₁])).1
        rw [hprocs] at hmem
        exact List.mem_singleton.1 hmem
      have hinit₁₄ : s₁₄.initproc = some proc := by
        rw [← hinitp]
        exact hr
      have htab₁₄ : Tables s₁₄ ((Roster.alone idle).join proc idle i) ∅ := by
        rw [hs₁₁]
        exact htab'.congr ⟨rfl, rfl, rfl, rfl, rfl, fun _ _ => rfl,
          fun _ _ => rfl, fun _ _ => rfl, fun _ _ => rfl, fun _ _ => rfl⟩
          htab'.live
      have hbody : body s₁₄ = body s₁₀ := by rw [hs₁₁]; rfl
      have hch : ((Roster.alone idle).join proc idle i).children idle
          = [proc] := Function.update_self _ _ _
      have hmembers : ∀ q, q ∈ ((Roster.alone idle).join proc idle i).members →
          q = idle ∨ q = proc := by
        intro q hq
        exact hq.imp_right fun hq => List.mem_singleton.1 hq
      have hne : proc ≠ idle := fun heq => hnot (heq ▸ hidleR)
      have hchp : ((Roster.alone idle).join proc idle i).children proc = [] :=
        (Function.update_of_ne hne _ _).trans (Function.update_self _ _ _)
      have hrun : ∀ q, q ∈ ((Roster.alone idle).join proc idle i).members →
          (body s₁₄ q).state = .runnable ∧ (body s₁₄ q).waitState = 0 := by
        intro q hq
        rw [hbody]
        rcases hmembers q hq with rfl | rfl
        · rw [hb q hidleR]
          unfold body
          rw [hself]
          exact ⟨rfl, hws⟩
        · exact ⟨hst, hwsp⟩
      refine ⟨(Roster.alone idle).join proc idle i, proc, ?_, fun c hz => ?_⟩
      · constructor
        case tables =>
            rw [hkernel]
            exact htab₁₄
        case initproc =>
            rw [hkernel]
            exact hinit₁₄
        case init_mem =>
            show proc ∈ ((Roster.alone idle).join proc idle i).children idle
            rw [hch]
            exact List.mem_singleton.2 rfl
        case noself =>
            intro q hq hin
            rcases hmembers q hq with rfl | rfl
            · rw [hch] at hin
              exact hne (List.mem_singleton.1 hin).symm
            · rw [hchp] at hin
              cases hin
        case status =>
            intro q hq
            rw [hkernel]
            exact .runnable (hrun q hq).1 (hrun q hq).2
        case asleep =>
            intro q hq pid store hw
            rw [hwaits q] at hw
            cases hw
        case waits_mem => exact fun q hw => absurd (hwaits q) hw
      · have hzst := hz.2
        rw [hkernel] at hzst
        have hr := (hrun c hz.1).1
        have hr' : (s₁₄.procs c).state = .runnable := hr
        rw [hr'] at hzst
        cases hzst

/-- What holds after any run from the start. -/
theorem Start.run (hstart : Start w) (hrun : Run Step w ls w') :
    ∃ R init, Inv w' R init ∧ ∀ c, ∃ reaped, Ledger w' R ls c reaped := by
  obtain ⟨R, init, hinv, hnone⟩ := hstart.inv
  have hledger : ∀ c, ∃ reaped, Ledger w R ([] : List (Label ν)) c reaped :=
    fun c => ⟨[], .nil, fun hz => absurd hz (hnone c), fun _ => rfl⟩
  obtain ⟨R', hinv', hledger'⟩ := hinv.run hrun hledger
  exact ⟨R', init, hinv', hledger'⟩

theorem Inv.listed (h : Inv w R init) : Listed w.kernel c ↔ c ∈ R.procs := by
  constructor
  · intro hc
    obtain ⟨L, hring, hmem⟩ := hc
    have heq := hring.unique h.tables.list
    have hcell : (.listLink c : Entry ν) ∈ R.procs.map .listLink :=
      heq ▸ List.mem_map_of_mem hmem
    obtain ⟨q, hq, hlink⟩ := List.mem_map.1 hcell
    exact Entry.listLink.inj hlink ▸ hq
  · exact fun hc => ⟨R.procs, h.tables.list, hc⟩

-- ==================================================== a small kernel

/-- A memory with the `proc_struct`s in use, the next one being above them,
and a number of free kernel stacks. -/
def smallMemory : Memory Nat where
  State := List Nat × Nat
  Mm := Unit
  live σ := {p | p ∈ σ.1}
  kmalloc σ :=
    (some (σ.1.foldr max 0 + 1), (σ.1.foldr max 0 + 1) :: σ.1, σ.2)
  kfree p σ := (σ.1.filter (· ≠ p), σ.2)
  setupKstack σ := (if σ.2 = 0 then none else some 0, σ.1, σ.2 - 1)
  putKstack _ σ := (σ.1, σ.2 + 1)
  copyMm _ mm σ := some ((true, mm), σ)
  exitMm _ σ := some σ
  userMemCheck _ _ _ := true
  storeInt _ _ _ σ := σ
  kmalloc_some := by
    intro σ σ' p h
    cases h
    have hle : ∀ q ∈ σ.1, q ≤ σ.1.foldr max 0 := by
      induction σ.1 with
      | nil => exact nofun
      | cons r σ ih =>
          intro q hq
          rcases List.mem_cons.1 hq with rfl | hq
          · exact le_max_left _ _
          · exact (ih q hq).trans (le_max_right _ _)
    refine ⟨fun hmem => ?_, ?_⟩
    · have hlt := hle _ hmem
      omega
    · ext q
      exact List.mem_cons
  kmalloc_none := nofun
  kfree_live p σ := by
    ext q
    simp
  setupKstack_live _ := rfl
  putKstack_live _ _ := rfl
  copyMm_live h := by cases h; rfl
  exitMm_live h := by cases h; rfl
  storeInt_live _ _ _ _ := rfl

/-- The variables before proc_init, with `kstacks` kernel stacks free. -/
def boot (kstacks : Nat) : State smallMemory where
  procs _ := ⟨.uninit, 0, 0, none, none, false, 0, 0, none, none, none⟩
  links := ⟨id, id⟩
  nrProcess := 0
  lastPid := maxPid
  nextSafe := maxPid
  idleproc := none
  initproc := none
  mem := (([] : List Nat), kstacks)

/-- The state that a call leaves, when it does not panic. -/
@[irreducible] def leaves {α : Type} (m : ProcM smallMemory α) (s : State smallMemory) :
    State smallMemory :=
  match m s with
  | some (_, s') => s'
  | none => s

theorem leaves_eq {α : Type} {m : ProcM smallMemory α}
    {s : State smallMemory} {r : α} (h : (m s).map Prod.fst = some r) :
    m s = some (r, leaves m s) := by
  obtain ⟨⟨r', s'⟩, hm, hr⟩ := Option.map_eq_some_iff.1 h
  unfold leaves
  rw [hm]
  cases hr
  rfl

/-- proc_init makes idle the process 1, and init the process 3. -/
def booted (kstacks : Nat) : World smallMemory where
  kernel := leaves (procInit 3 0) (boot kstacks)
  waits _ := none

theorem booted_start : Start (booted 2) where
  init := ⟨boot 2, 3, 0, rfl, rfl, rfl, rfl, rfl,
    leaves_eq (by decide +kernel)⟩
  waits _ := rfl

/-- A process that find_proc finds is on proc_list. -/
theorem Inv.listed_of_find (h : Inv w R init) (fuel : Nat) (pid : Int)
    (hfind : (findProc fuel pid w.kernel).map Prod.fst = some (some p)) :
    Listed w.kernel p := by
  obtain ⟨⟨r, s'⟩, hcall, hr⟩ := Option.map_eq_some_iff.1 hfind
  have hrp : r = some p := hr
  rw [hrp] at hcall
  exact h.listed.2 ((h.tables.findProc hcall).2.1 p rfl).1

/-- The calls of a small run: init forks the process 5, which exits with 7,
and init reaps it. -/
def smallCalls : List (Label Nat) :=
  [.fork 3 0 2, .exit 5 7, .wait 3 0 (some 0) (.reaped 5 (some 7))]

def forkedKernel : State smallMemory := leaves (doFork 4 3 0) (booted 2).kernel

def exitedKernel : State smallMemory := leaves (doExit 4 5 7) forkedKernel

def reapedKernel : State smallMemory :=
  leaves (doWait 4 3 0 (some 0)) exitedKernel

theorem small_fork :
    Step (booted 2) (.fork 3 0 2) ⟨forkedKernel, fun _ => none⟩ := by
  obtain ⟨R, init, hinv, -⟩ := booted_start.run (.nil (booted 2))
  exact .fork ⟨.inr (hinv.listed_of_find 4 1 (by decide +kernel)), by decide +kernel⟩ rfl
    (leaves_eq (by decide +kernel))

theorem small_exit : Step ⟨forkedKernel, fun _ => none⟩ (.exit 5 7)
    ⟨exitedKernel, fun _ => none⟩ := by
  obtain ⟨R, init, hinv, -⟩ := booted_start.run (.single small_fork)
  exact .exit ⟨.inr (hinv.listed_of_find 4 2 (by decide +kernel)), by decide +kernel⟩ rfl
    (leaves_eq (r := ()) (by decide +kernel))

theorem small_reap : Step ⟨exitedKernel, fun _ => none⟩
    (.wait 3 0 (some 0) (.reaped 5 (some 7)))
    ⟨reapedKernel, fun _ => none⟩ := by
  obtain ⟨R, init, hinv, -⟩ :=
    booted_start.run (.cons small_fork (.single small_exit))
  exact .wait ⟨.inr (hinv.listed_of_find 4 1 (by decide +kernel)), by decide +kernel⟩ rfl
    (leaves_eq (by decide +kernel))

theorem small_run :
    Run Step (booted 2) smallCalls ⟨reapedKernel, fun _ => none⟩ :=
  .cons small_fork (.cons small_exit (.single small_reap))

-- ======================================================= the results

/-- No lost exit: in a state that a run reaches, a process asleep in
do_wait has no zombie among the children it waits for; and for each process
structure, the calls of do_wait that reaped its processes took one exit
each, in order, and stored its code if they stored any, all but the exit of
the zombie that is there. -/
theorem no_lost_exit (hstart : Start w) (hrun : Run Step w ls w') :
    (∀ p c pid store, w'.waits p = some (pid, store) →
      (w'.kernel.procs p).state = .sleeping →
      (w'.kernel.procs p).waitState = wtChild →
      Listed w'.kernel c → (w'.kernel.procs c).parent = some p →
      Awaited w'.kernel pid c → (w'.kernel.procs c).state ≠ .zombie)
    ∧ ∀ c, ∃ codes,
      List.Forall₂ (fun stored code => stored = none ∨ stored = some code)
        (reaps c ls) codes
      ∧ ((Listed w'.kernel c ∧ (w'.kernel.procs c).state = .zombie) →
        exits c ls = codes ++ [(w'.kernel.procs c).exitCode])
      ∧ (¬ (Listed w'.kernel c ∧ (w'.kernel.procs c).state = .zombie) →
        exits c ls = codes) := by
  obtain ⟨R, init, hinv, hledger⟩ := hstart.run hrun
  refine ⟨fun p c pid store hw hst hws hc hpar haw => ?_, fun c => ?_⟩
  · have hcp := hinv.listed.1 hc
    have hroot : c ≠ R.idle :=
      fun heq => hinv.tables.idle_notMem (heq ▸ hcp)
    obtain ⟨hp, hchild⟩ :=
      hinv.tables.family.mem_children (.inr hcp) hroot hpar
    exact hinv.asleep p hp pid store hw hst c hchild haw
  · obtain ⟨codes, hl⟩ := hledger c
    have hiff : Zombie w' R c
        ↔ Listed w'.kernel c ∧ (w'.kernel.procs c).state = .zombie := by
      constructor
      · intro hz
        refine ⟨hinv.listed.2 (hz.1.resolve_left ?_), hz.2⟩
        intro heq
        cases hinv.status c hz.1 with
        | runnable hs => cases hs.symm.trans hz.2
        | sleeping hs => cases hs.symm.trans hz.2
        | zombie _ _ _ _ hplain => exact hplain.1 heq
      · exact fun hz => ⟨.inr (hinv.listed.1 hz.1), hz.2⟩
    exact ⟨codes, hl.codes, fun hz => hl.zombie (hiff.2 hz),
      fun hz => hl.other fun hz' => hz (hiff.1 hz')⟩

theorem no_lost_exit_reaped :
    ∃ codes, List.Forall₂ (fun stored code => stored = none
        ∨ stored = some code) (reaps 5 smallCalls) codes
      ∧ exits 5 smallCalls = codes ∧ codes = [7] := by
  obtain ⟨codes, hcodes, hz, hnz⟩ :=
    (no_lost_exit booted_start small_run).2 5
  have hexits : exits 5 smallCalls = [7] := by decide
  have hstate : (reapedKernel.procs 5).state = .zombie := by decide +kernel
  by_cases hl : Listed reapedKernel 5
  · have hbad := hz ⟨hl, hstate⟩
    rw [hexits] at hbad
    have hreaps : reaps 5 smallCalls = [some 7] := by decide
    have hlen := hcodes.length_eq
    rw [hreaps] at hlen
    have hlen' := congrArg List.length hbad
    rw [List.length_append] at hlen'
    simp only [List.length_cons, List.length_nil] at hlen hlen'
    omega
  · have hsame := hnz fun h => hl h.1
    exact ⟨codes, hcodes, hsame, hsame.symm.trans hexits⟩

/-- The process tables agree with each other. -/
structure Consistent (s : State A) (R : Roster ν) : Prop where
  idle : s.idleproc = some R.idle ∧ R.idle ∉ R.procs
  listed : IsRing s.links .procList (R.procs.map .listLink)
  count : s.nrProcess = R.procs.length + 1
  siblings : ∀ p ∈ R.members, (s.procs p).cptr = (R.children p).head?
    ∧ Older (kin s) (R.children p) none ∧ Younger (kin s) none (R.children p)
    ∧ (R.children p).Nodup
    ∧ ∀ c ∈ R.children p, (s.procs c).parent = some p
  once : ∀ c ∈ R.members, c ≠ R.idle →
    ∃ p, (p ∈ R.members ∧ c ∈ R.children p)
      ∧ ∀ q, q ∈ R.members ∧ c ∈ R.children q → q = p
  hashed : ∀ i, i.toNat < 1024 →
    IsRing s.links (.hashList i) ((R.chain i).map .hashLink)
  chained : ∀ p ∈ R.procs, ∃ i, (i.toNat < 1024 ∧ p ∈ R.chain i)
      ∧ ∀ j, p ∈ R.chain j → j = i
  found : ∀ pid, ∃ r enough, (∀ fuel, enough < fuel →
      findProc fuel pid s = some (r, s))
    ∧ ∀ p, r = some p ↔ p ∈ R.procs ∧ (s.procs p).pid = pid

/-- In every state that a run reaches the process tables are
consistent. -/
theorem tables_consistent (hstart : Start w) (hrun : Run Step w ls w') :
    ∃ R, Consistent w'.kernel R := by
  obtain ⟨R, init, hinv, -⟩ := hstart.run hrun
  have h := hinv.tables
  refine ⟨R, ⟨⟨h.idleproc, h.idle_notMem⟩, h.list, h.nrProcess, ?_, ?_, h.hash,
    ?_, ?_⟩⟩
  · intro p hp
    exact ⟨h.family.head p hp, h.family.older p hp,
      h.family.younger p hp (Set.notMem_empty p), h.family.nodup p hp,
      fun c hc => (h.family.child p hp c hc).2.2⟩
  · intro c hc hne
    obtain ⟨p, hp, hcp⟩ := h.family.parent c hc hne
    exact ⟨p, ⟨hp, hcp⟩, fun q hq =>
      h.family.parent_unique hq.1 hp hq.2 hcp⟩
  · intro p hp
    refine ⟨pidHashfn (w'.kernel.procs p).pid,
      ⟨pidHashfn_lt _, (h.mem_chain _ p).2 ⟨hp, rfl⟩⟩, fun j hj => ?_⟩
    exact ((h.mem_chain j p).1 hj).2.symm
  · intro pid
    obtain ⟨r, hr⟩ := h.findProc_returns
      (Nat.lt_succ_self (R.chain (pidHashfn pid)).length)
    obtain ⟨-, hfound⟩ := h.findProc hr
    refine ⟨r, (R.chain (pidHashfn pid)).length, fun fuel hfuel => ?_,
      fun p => ⟨fun heq => hfound.1 p heq, fun hp => ?_⟩⟩
    · obtain ⟨r', hr'⟩ := h.findProc_returns hfuel
      obtain ⟨-, hfound'⟩ := h.findProc hr'
      have heq : r' = r := by
        cases r with
        | none =>
            cases r' with
            | none => rfl
            | some q =>
                have hq := hfound'.1 q rfl
                exact absurd hq.2 (hfound.2 rfl q hq.1)
        | some p =>
            have hp := hfound.1 p rfl
            cases r' with
            | none => exact absurd hp.2 (hfound'.2 rfl p hp.1)
            | some q =>
                have hq := hfound'.1 q rfl
                rw [h.pid_inj q hq.1 p hp.1 (hq.2.trans hp.2.symm)]
      rw [← heq]
      exact hr'
    · cases r with
      | none => exact absurd hp.2 (hfound.2 rfl p hp.1)
      | some q =>
          have hq := hfound.1 q rfl
          rw [h.pid_inj q hq.1 p hp.1 (hq.2.trans hp.2.symm)]

theorem tables_consistent_reaped : ∃ R, Consistent reapedKernel R :=
  tables_consistent booted_start small_run

/-- idle has pid 0, but `find_proc` finds no process with pid 0. -/
theorem idle_not_found : Start (booted 2)
    ∧ (booted 2).kernel.idleproc = some 1
    ∧ ((booted 2).kernel.procs 1).pid = 0
    ∧ ∀ fuel, findProc fuel 0 (booted 2).kernel
      = some (none, (booted 2).kernel) :=
  ⟨booted_start, by decide +kernel, by decide +kernel, fun _ => rfl⟩

end Ucore.Process
