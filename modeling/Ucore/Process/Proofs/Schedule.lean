/-
The round-robin scheduler takes turns around proc_list.

`schedule` goes once around the list from the running process, and from its
head for idle: the first RUNNABLE process it comes to runs next
(`schedule_spec`). The running process stays on the list as long as it runs,
new processes join at its front, and only ZOMBIE ones leave, so the turns
are those of the library, and none comes twice before that of a process that
stays RUNNABLE.
-/
import Ucore.Lib.RoundRobin
import Ucore.Process.System
import Ucore.Process.Proofs.System

namespace Ucore.Process

open Ring RoundRobin

variable {ν : Type} [DecidableEq ν] {A : Memory ν} {s s' : State A}
  {R R' : Roster ν} {w w' : World A} {k k' k₁ k₂ : Cpu A}
  {p q c next current idle init : ν} {l : Label ν} {L L' : List ν}
  {fuel : Nat} {es : List (Event ν)}

-- ========================================================= one round

/-- A process can be picked. -/
def ready (s : State A) (p : ν) : Bool :=
  decide ((s.procs p).state = .runnable)

theorem ready_iff : ready s p = true ↔ (s.procs p).state = .runnable :=
  decide_eq_true_iff

/-- The process of a link on proc_list. -/
def listProc : Entry ν → Option ν
  | .listLink p => some p
  | _ => none

/-- Along a path of links on proc_list the scan finds the first RUNNABLE
process, or else comes to the last one. -/
theorem scheduleScan_spec {le last : Entry ν} {cells : List (Entry ν)}
    {found : Option ν} (hpath : Path s.links.next le cells last)
    (hcells : ∀ e ∈ cells ++ [last], e = .procList ∨ ∃ p, e = .listLink p)
    (hlast : last ∉ cells) (hfuel : cells.length < fuel) :
    scheduleScan s last fuel le found
      = some ((((cells ++ [last]).filterMap listProc).find? (ready s)).or
        (((cells ++ [last]).filterMap listProc).getLast?.or found)) := by
  induction cells generalizing le fuel found with
  | nil =>
      cases fuel with
      | zero => cases hfuel
      | succ fuel =>
          have hnext : listNext s.links le = last := hpath
          rw [scheduleScan, hnext]
          rcases hcells last List.mem_cons_self with hl | ⟨p, hl⟩
          · rw [hl]
            rfl
          · rw [hl]
            by_cases hp : (s.procs p).state = .runnable
            · have hready : ready s p = true := ready_iff.2 hp
              simp [le2proc, hp, listProc, hready]
            · have hready : ready s p = false := decide_eq_false hp
              simp [le2proc, hp, listProc, hready]
  | cons e cells ih =>
      cases fuel with
      | zero => cases hfuel
      | succ fuel =>
          have hnext : listNext s.links le = e := hpath.1
          have hne : e ≠ last := fun heq => hlast (heq ▸ List.mem_cons_self)
          have hgo : ∀ {found : Option ν}, scheduleScan s last fuel e found
              = _ := ih hpath.2
            (fun x hx => hcells x (List.mem_cons_of_mem e hx))
            (fun hin => hlast (List.mem_cons_of_mem e hin))
            (Nat.lt_of_succ_lt_succ hfuel)
          rw [scheduleScan, hnext]
          rcases hcells e List.mem_cons_self with he | ⟨p, he⟩
          · subst he
            simp only [ne_eq, not_true_eq_false, if_false]
            rw [if_pos hne, hgo]
            rfl
          · subst he
            rw [if_pos (by rintro ⟨⟩)]
            simp only [le2proc]
            rw [List.cons_append, List.filterMap_cons_some
              (show listProc (.listLink p) = some p from rfl)]
            by_cases hp : (s.procs p).state = .runnable
            · have hready : ready s p = true := ready_iff.2 hp
              rw [if_pos hp, List.find?_cons_of_pos hready]
              rfl
            · have hready : ¬ ready s p = true := fun h => hp (ready_iff.1 h)
              rw [if_neg hp, if_pos hne, hgo, List.find?_cons_of_neg hready,
                List.getLast?_cons]
              generalize ((cells ++ [last]).filterMap listProc).getLast? = o
              cases o <;> rfl

/-- More fuel changes nothing. -/
theorem scheduleScan_more {le last : Entry ν} {found : Option ν}
    {r : Option ν} {fuel' : Nat} (hle : fuel ≤ fuel')
    (h : scheduleScan s last fuel le found = some r) :
    scheduleScan s last fuel' le found = some r := by
  induction fuel generalizing fuel' le found with
  | zero => cases h
  | succ fuel ih =>
      obtain ⟨fuel', rfl⟩ : ∃ n, fuel' = n + 1 := ⟨fuel' - 1, by omega⟩
      have hle' : fuel ≤ fuel' := by omega
      rw [scheduleScan] at h ⊢
      split at h
      case isTrue hlist =>
          rw [if_pos hlist]
          cases hp : le2proc (listNext s.links le) with
          | none => rw [hp] at h; cases h
          | some p =>
              rw [hp] at h
              dsimp only at h ⊢
              split at h
              case isTrue hrun => rwa [if_pos hrun]
              case isFalse hrun =>
                  rw [if_neg hrun]
                  split at h
                  case isTrue hmore => rw [if_pos hmore]; exact ih hle' h
                  case isFalse hend => rwa [if_neg hend]
      case isFalse hlist =>
          rw [if_neg hlist]
          split at h
          case isTrue hmore => rw [if_pos hmore]; exact ih hle' h
          case isFalse hend => rwa [if_neg hend]

theorem filterMap_links (L : List ν) :
    (L.map (Entry.listLink : ν → Entry ν)).filterMap listProc = L := by
  rw [List.filterMap_map]
  exact List.filterMap_some

theorem link_notMem (hc : c ∉ L) :
    (Entry.listLink c : Entry ν) ∉ L.map .listLink := by
  intro hin
  obtain ⟨p, hp, heq⟩ := List.mem_map.1 hin
  exact hc (Entry.listLink.inj heq ▸ hp)

theorem head_notMem (L : List ν) :
    (Entry.procList : Entry ν) ∉ L.map .listLink := by
  intro hin
  obtain ⟨p, -, heq⟩ := List.mem_map.1 hin
  cases heq

/-- What `schedule` scans: the links of the processes around the list. -/
theorem scheduleScan_round
    (hring : IsRing s.links .procList (L.map .listLink))
    (hidle : s.idleproc = some idle) (hnot : idle ∉ L)
    (hcur : current = idle ∨ current ∈ L) (hfuel : L.length < fuel) :
    scheduleScan s
        (if some current = s.idleproc then .procList else .listLink current)
        fuel
        (if some current = s.idleproc then .procList else .listLink current)
        none
      = some (((rotation L current).find? (ready s)).or
        (rotation L current).getLast?) := by
  have hlinks : ∀ {M : List ν}, ∀ e ∈ M.map Entry.listLink,
      e = .procList ∨ ∃ p, e = .listLink p := by
    intro M e he
    obtain ⟨p, -, heq⟩ := List.mem_map.1 he
    exact .inr ⟨p, heq.symm⟩
  by_cases hi : current = idle
  · rw [if_pos (by rw [hidle, hi])]
    have hcells : ∀ e ∈ L.map Entry.listLink ++ [Entry.procList],
        e = .procList ∨ ∃ p, e = .listLink p := by
      intro e he
      rcases List.mem_append.1 he with he | he
      · exact hlinks e he
      · exact .inl (List.mem_singleton.1 he)
    have hlen : (L.map (Entry.listLink : ν → Entry ν)).length < fuel := by
      rwa [List.length_map]
    rw [scheduleScan_spec hring.seg.path_next hcells (head_notMem L) hlen, List.filterMap_append, filterMap_links, hi,
        rotation_notMem hnot]
    simp [listProc]
  · have hin := hcur.resolve_left hi
    rw [if_neg (by rw [hidle]; exact fun h => hi (Option.some.inj h))]
    obtain ⟨l₁, l₂, hL, hc⟩ := List.eq_append_cons_of_mem hin
    have hnodup : (l₁ ++ current :: l₂).Nodup := by
      rw [← hL]
      exact List.Nodup.of_map _ (List.nodup_cons.1 hring.nodup).2
    have hc₂ : current ∉ l₂ :=
      (List.nodup_cons.1 (List.nodup_append.1 hnodup).2.1).1
    rw [hL, List.map_append, List.map_cons] at hring
    obtain ⟨h₁, h₂⟩ := seg_append.1 hring.seg
    have hround : Seg s.links (.listLink current)
        (l₂.map .listLink ++ .procList :: l₁.map .listLink)
        (.listLink current) := seg_append.2 ⟨h₂, h₁⟩
    have hcells : ∀ e ∈ (l₂.map Entry.listLink
          ++ Entry.procList :: l₁.map Entry.listLink)
          ++ [Entry.listLink current],
        e = .procList ∨ ∃ p, e = .listLink p := by
      intro e he
      rcases List.mem_append.1 he with he | he
      · rcases List.mem_append.1 he with he | he
        · exact hlinks e he
        · rcases List.mem_cons.1 he with he | he
          · exact .inl he
          · exact hlinks e he
      · exact .inr ⟨current, List.mem_singleton.1 he⟩
    have hout : (Entry.listLink current : Entry ν)
        ∉ l₂.map .listLink ++ .procList :: l₁.map .listLink := by
      rw [List.mem_append, List.mem_cons, not_or, not_or]
      exact ⟨link_notMem hc₂, (fun h => by cases h), link_notMem hc⟩
    have hlen : (l₂.map (Entry.listLink : ν → Entry ν)
        ++ Entry.procList :: l₁.map .listLink).length < fuel := by
      rw [hL] at hfuel
      simp only [List.length_append, List.length_cons, List.length_map]
        at hfuel ⊢
      omega
    rw [scheduleScan_spec hround.path_next hcells hout hlen,
      List.filterMap_append, List.filterMap_append,
      List.filterMap_cons_none (show listProc Entry.procList = none from rfl),
      filterMap_links, filterMap_links, hL, rotation_split hc]
    simp [listProc]

/-- `schedule` picks the first RUNNABLE process around the list, or idle. -/
theorem schedule_spec
    (hring : IsRing s.links .procList (L.map .listLink))
    (hidle : s.idleproc = some idle) (hnot : idle ∉ L)
    (hcur : current = idle ∨ current ∈ L) (hfuel : L.length < fuel) :
    schedule fuel current s
      = some (((rotation L current).find? (ready s)).getD idle, s) := by
  have hscan := scheduleScan_round hring hidle hnot hcur hfuel
  simp only [schedule, Call.bind_eq_some, Call.get_eq_some,
    Call.ofOption_eq_some]
  refine ⟨s, s, ⟨rfl, rfl⟩, _, s, ⟨hscan, rfl⟩, ?_⟩
  cases hfind : (rotation L current).find? (ready s) with
  | some next =>
      have hready := ready_iff.1 (List.find?_some hfind)
      simp [hready]
  | none =>
      -- the last process of the round is not RUNNABLE either
      cases hlast : (rotation L current).getLast? with
      | none => simp [hidle]
      | some next =>
          have hno := List.find?_eq_none.1 hfind next
            (List.mem_of_getLast? hlast)
          rw [ready_iff] at hno
          simp [hno, hidle]

/-- Whatever fuel it returned with. -/
theorem schedule_run
    (hring : IsRing s.links .procList (L.map .listLink))
    (hidle : s.idleproc = some idle) (hnot : idle ∉ L)
    (hcur : current = idle ∨ current ∈ L)
    (hcall : schedule fuel current s = some (next, s')) :
    next = ((rotation L current).find? (ready s)).getD idle ∧ s' = s := by
  simp only [schedule, Call.bind_eq_some, Call.get_eq_some,
    Call.ofOption_eq_some] at hcall
  obtain ⟨s₁, s₂, ⟨rfl, rfl⟩, r, s₃, ⟨hscan, rfl⟩, hrest⟩ := hcall
  have hmax : schedule (max fuel (L.length + 1)) current s₃
      = some (next, s') := by
    simp only [schedule, Call.bind_eq_some, Call.get_eq_some,
      Call.ofOption_eq_some]
    exact ⟨s₃, s₃, ⟨rfl, rfl⟩, r, s₃,
      ⟨scheduleScan_more (Nat.le_max_left _ _) hscan, rfl⟩, hrest⟩
  rw [schedule_spec hring hidle hnot hcur
    (show L.length < max fuel (L.length + 1) by omega)] at hmax
  cases hmax
  exact ⟨rfl, rfl⟩

-- ========================================================== the list

/-- What a call does to proc_list: a process joins at the front, or one that
is not the caller leaves. -/
inductive ListShift (L : List ν) (caller : ν) : List ν → Prop
  | same : ListShift L caller L
  | join (c : ν) (hc : c ∉ L) : ListShift L caller (c :: L)
  | leave (c : ν) (hc : c ≠ caller) : ListShift L caller (L.erase c)

theorem MayWake.runnable {μ : Type} {b b' : Body μ} (h : MayWake b b')
    (hst : b.state = .runnable) : b'.state = .runnable := by
  rcases h with h | h
  · rw [h]
    exact hst
  · rw [h.1]
    rfl

/-- What a call leaves: proc_list changed like that, idle the same, and no
process but the caller that has stopped being RUNNABLE. -/
structure Shifted (w : World A) (R : Roster ν) (caller : ν) (s : State A)
    (L : List ν) : Prop where
  list : IsRing s.links .procList (L.map .listLink)
  idleproc : s.idleproc = some R.idle
  shift : ListShift R.procs caller L
  state : ∀ q ∈ R.members, q ≠ caller →
    (w.kernel.procs q).state = .runnable → (s.procs q).state = .runnable

theorem Shifted.of_tables (htab : Tables s' R' ∅) (hidle : R'.idle = R.idle)
    (hshift : ListShift R.procs p R'.procs)
    (hstate : ∀ q ∈ R.members, q ≠ p →
      (w.kernel.procs q).state = .runnable →
      (s'.procs q).state = .runnable) : Shifted w R p s' R'.procs :=
  ⟨htab.list, hidle ▸ htab.idleproc, hshift, hstate⟩

theorem Inv.shift_exit {code : Int} {u : Unit} (h : Inv w R init)
    (hruns : Runs w.kernel p)
    (hcall : doExit fuel p code w.kernel = some (u, s')) :
    Shifted w R p s' R.procs := by
  obtain ⟨-, -, parent, -, -, hx⟩ := h.exited hruns hcall
  refine ⟨hx.tables.list, hx.tables.idleproc, .same, ?_⟩
  intro q _ hne hst
  exact (hx.other q hne).runnable hst

theorem Inv.shift_wait {pid : Int} {store : Option Nat} {r : Waited ν}
    (h : Inv w R init) (hruns : Runs w.kernel p)
    (hspec : WaitSpec w.kernel s' R p pid store r) :
    ∃ L', Shifted w R p s' L' := by
  cases hspec with
  | reaped proc i hchild hz haw hidle hinit htab hbody hvar hlive =>
      have hne : proc ≠ p := by
        intro heq
        rw [heq, hruns.state] at hz
        cases hz
      refine ⟨_, .of_tables htab rfl (.leave proc hne) ?_⟩
      intro q _ _ hst
      exact (congrArg Body.state (congrFun hbody q)).trans hst
  | badProc hsame =>
      rw [hsame]
      exact ⟨_, .of_tables h.tables rfl .same fun _ _ _ hst => hst⟩
  | inval hsame =>
      rw [hsame]
      exact ⟨_, .of_tables h.tables rfl .same fun _ _ _ hst => hst⟩
  | slept hnone htab hbody hvar hmem =>
      refine ⟨_, .of_tables htab rfl .same ?_⟩
      intro q _ hne hst
      have hb := congrFun hbody q
      rw [Function.update_of_ne hne] at hb
      exact (congrArg Body.state hb).trans hst

/-- A call shifts proc_list. -/
theorem Inv.step_shift (h : Inv w R init) (hs : Step w l w') :
    ∃ L', Shifted w R l.caller w'.kernel L' := by
  cases hs with
  | @fork p fuel flags ret s' hruns hpc hcall =>
      have hforked := doFork_spec h.tables (h.runs_mem hruns) h.tables.live
        (le_refl _) hcall
      cases hforked with
      | failed hret hframe hlive =>
          have htab := h.tables.congr hframe.sameTables fun q hq =>
            hlive (h.tables.live q hq)
          refine ⟨_, .of_tables htab rfl .same ?_⟩
          intro q hq _ hst
          exact (congrArg Body.state (hframe.body hq)).trans hst
      | child proc i hnew hlive htab hbody hstate hws hpid hinit =>
          have hout : proc ∉ R.procs := fun hin =>
            hnew (h.tables.live proc (.inr hin))
          refine ⟨_, .of_tables htab rfl (.join proc hout) ?_⟩
          intro q hq _ hst
          exact (congrArg Body.state (hbody q hq)).trans hst
  | exit hruns hpc hcall => exact ⟨_, h.shift_exit hruns hcall⟩
  | wait hruns hpc hcall =>
      exact h.shift_wait hruns
        (doWait_spec h.tables (h.runs_mem hruns) h.childless hcall)
  | resume hruns hpc hcall =>
      simp only [waitResume, Call.bind_eq_some, Call.get_eq_some] at hcall
      obtain ⟨s₁, s₂, ⟨rfl, rfl⟩, hcall⟩ := hcall
      split at hcall
      case isTrue =>
          simp only [Call.bind_eq_some, Call.pure_eq_some] at hcall
          obtain ⟨u, s₃, hexit, rfl, rfl⟩ := hcall
          exact ⟨_, h.shift_exit hruns hexit⟩
      case isFalse =>
          exact h.shift_wait hruns
            (waitRepeat_spec h.tables (h.runs_mem hruns) h.childless hcall)
  | kill hruns hpc hcall =>
      obtain ⟨htab, -, -, hmay⟩ := doKill_spec h.tables h.run_zero hcall
      refine ⟨_, .of_tables htab rfl .same ?_⟩
      intro q _ _ hst
      exact (hmay q).runnable hst
  | @user p mm mem hruns hpc hlive =>
      refine ⟨R.procs, h.tables.list, h.tables.idleproc, .same, ?_⟩
      intro q _ hne hst
      have hproc : (w.kernel.update p fun q => { q with mm }).procs q
          = w.kernel.procs q := (update_procs _ _ _ _).trans (if_neg hne)
      show ((w.kernel.update p fun q => { q with mm }).procs q).state = _
      rw [hproc]
      exact hst

-- ===================================================== the invariant

/-- What holds in every state of a run: the process that runs is on
proc_list or idle, and idle is RUNNABLE. -/
structure CpuInv (k : Cpu A) (R : Roster ν) (init : ν) : Prop where
  world : Inv k.world R init
  current : k.current = R.idle ∨ k.current ∈ R.procs
  idle : (k.world.kernel.procs R.idle).state = .runnable

theorem links_inj {m : Links (Entry ν)}
    (h : IsRing m .procList (L.map .listLink))
    (h' : IsRing m .procList (L'.map .listLink)) : L = L' :=
  List.map_injective_iff.2 (fun _ _ => Entry.listLink.inj) (h.unique h')

theorem CpuInv.nodup (h : CpuInv k R init) : R.procs.Nodup :=
  h.world.tables.nodup

/-- The process that `schedule` lets run. -/
theorem CpuInv.picked (h : CpuInv k R init)
    (hcall : schedule fuel k.current k.world.kernel = some (next, s)) :
    next = ((rotation R.procs k.current).find?
        (ready k.world.kernel)).getD R.idle
      ∧ s = k.world.kernel :=
  schedule_run h.world.tables.list h.world.tables.idleproc
    h.world.tables.idle_notMem h.current hcall

theorem mem_of_find {f : ν → Bool}
    (h : (rotation L current).find? f = some next) : next ∈ L :=
  (rotation_perm L current).mem_iff.1 (List.mem_of_find?_eq_some h)

theorem CpuInv.schedule (h : CpuInv k R init)
    (hcall : schedule fuel k.current k.world.kernel = some (next, s)) :
    CpuInv { world := { k.world with kernel := s }, current := next } R
      init := by
  obtain ⟨hnext, hs⟩ := h.picked hcall
  subst hs
  refine ⟨h.world, ?_, h.idle⟩
  show next = R.idle ∨ next ∈ R.procs
  rw [hnext]
  cases hfind : (rotation R.procs k.current).find? (ready k.world.kernel) with
  | none => exact .inl rfl
  | some x => exact .inr (mem_of_find hfind)

/-- A call of the running process, which is not idle. -/
theorem CpuInv.call (h : CpuInv k R init) (hstep : Step k.world l w)
    (hcaller : l.caller = k.current)
    (hidle : k.world.kernel.idleproc ≠ some k.current) :
    ∃ R', CpuInv { k with world := w } R' init ∧ R'.idle = R.idle
      ∧ ListShift R.procs k.current R'.procs := by
  have hne : k.current ≠ R.idle := by
    intro heq
    rw [h.world.tables.idleproc, heq] at hidle
    exact hidle rfl
  have hin : k.current ∈ R.procs := h.current.resolve_left hne
  obtain ⟨R', hinv, -⟩ := h.world.step hstep
  obtain ⟨L', hshift⟩ := h.world.step_shift hstep
  rw [hcaller] at hshift
  have hL : R'.procs = L' := links_inj hinv.tables.list hshift.list
  have hi : R'.idle = R.idle := by
    have hidle' := hshift.idleproc
    rw [hinv.tables.idleproc] at hidle'
    exact Option.some.inj hidle'
  refine ⟨R', ⟨hinv, .inr ?_, ?_⟩, hi, hL ▸ hshift.shift⟩
  · show k.current ∈ R'.procs
    rw [hL]
    cases hshift.shift with
    | same => exact hin
    | join c hc => exact List.mem_cons_of_mem c hin
    | leave c hc => exact (List.mem_erase_of_ne (Ne.symm hc)).2 hin
  · show (w.kernel.procs R'.idle).state = .runnable
    rw [hi]
    exact hshift.state R.idle R.idle_mem (Ne.symm hne) h.idle

theorem CpuInv.step {e : Event ν} (h : CpuInv k R init)
    (hstep : CpuStep k e k') :
    ∃ R', CpuInv k' R' init ∧ R'.idle = R.idle := by
  cases hstep with
  | call hstep hcaller hidle =>
      obtain ⟨R', h', hi, -⟩ := h.call hstep hcaller hidle
      exact ⟨R', h', hi⟩
  | schedule hcall => exact ⟨R, h.schedule hcall, rfl⟩

theorem CpuInv.run (h : CpuInv k R init) (hrun : Run CpuStep k es k') :
    ∃ R', CpuInv k' R' init ∧ R'.idle = R.idle := by
  apply hrun.invariant (I := fun k => ∃ R', CpuInv k R' init ∧ R'.idle = R.idle)
  · intro k e k' hk hs
    obtain ⟨R', hk, hi⟩ := hk
    obtain ⟨R'', hk', hi'⟩ := hk.step hs
    exact ⟨R'', hk', hi'.trans hi⟩
  · exact ⟨R, h, rfl⟩

theorem Cpu.Start.inv (h : k.Start) : ∃ R init, CpuInv k R init := by
  obtain ⟨R, init, hinv, hnone⟩ := h.world.inv
  have hcur : k.current = R.idle := by
    have hidle := h.current
    rw [hinv.tables.idleproc] at hidle
    exact (Option.some.inj hidle).symm
  refine ⟨R, init, hinv, .inl hcur, ?_⟩
  cases hinv.status R.idle R.idle_mem with
  | runnable hst => exact hst
  | sleeping _ _ hwait => exact absurd (h.world.waits R.idle) hwait
  | zombie _ _ _ _ hplain => exact absurd rfl hplain.1

theorem Cpu.Start.run (h : k.Start) (hrun : Run CpuStep k es k') :
    ∃ R init, CpuInv k' R init := by
  obtain ⟨R, init, hinv⟩ := h.inv
  obtain ⟨R', hinv', -⟩ := hinv.run hrun
  exact ⟨R', init, hinv'⟩

-- ========================================================= the picks

theorem CpuInv.listed (h : CpuInv k R init) :
    Listed k.world.kernel p ↔ p ∈ R.procs :=
  h.world.listed

/-- `schedule` returns. -/
theorem CpuInv.returns (h : CpuInv k R init) : ∃ enough, ∀ fuel,
    enough < fuel → ∃ r, Process.schedule fuel k.current k.world.kernel
      = some r :=
  ⟨R.procs.length, fun _ hfuel => ⟨_, schedule_spec h.world.tables.list
    h.world.tables.idleproc h.world.tables.idle_notMem h.current hfuel⟩⟩

/-- It picks a RUNNABLE process, and idle only if no other is. -/
theorem CpuInv.pick (h : CpuInv k R init)
    (hcall : Process.schedule fuel k.current k.world.kernel
      = some (next, s)) :
    (k.world.kernel.procs next).state = .runnable
      ∧ (next = R.idle → ∀ p ∈ R.procs,
        (k.world.kernel.procs p).state ≠ .runnable) := by
  obtain ⟨hnext, -⟩ := h.picked hcall
  rw [hnext]
  cases hfind : (rotation R.procs k.current).find? (ready k.world.kernel) with
  | some x =>
      refine ⟨ready_iff.1 (List.find?_some hfind), ?_⟩
      intro hx
      have hin := mem_of_find hfind
      rw [Option.getD_some] at hx
      exact absurd (hx ▸ hin) h.world.tables.idle_notMem
  | none =>
      refine ⟨h.idle, ?_⟩
      intro _ p hp hst
      have hin := (rotation_perm R.procs k.current).mem_iff.2 hp
      exact List.find?_eq_none.1 hfind p hin (ready_iff.2 hst)

-- ====================================================== the fairness

/-- `p` is RUNNABLE on proc_list, and `q` is still there, or idle. -/
structure Stays (p q : ν) (k : Cpu A) : Prop where
  listed : Listed k.world.kernel p
  state : (k.world.kernel.procs p).state = .runnable
  other : k.world.kernel.idleproc = some q ∨ Listed k.world.kernel q

/-- A step from a state like that. -/
def StayStep (p q : ν) (k : Cpu A) (e : Event ν) (k' : Cpu A) : Prop :=
  CpuStep k e k' ∧ Stays p q k

/-- The turn that `schedule` gives. -/
theorem CpuInv.turn (h : CpuInv k R init) (hstay : Stays p q k)
    (hbehind : Behind R.procs q k.current p)
    (hcall : Process.schedule fuel k.current k.world.kernel
      = some (next, s)) (hne : next ≠ p) :
    Behind R.procs q next p ∧ next ≠ q := by
  have hp := h.listed.1 hstay.listed
  obtain ⟨hnext, -⟩ := h.picked hcall
  cases hfind : (rotation R.procs k.current).find? (ready k.world.kernel) with
  | none =>
      have hin := (rotation_perm R.procs k.current).mem_iff.2 hp
      exact absurd (ready_iff.2 hstay.state)
        (List.find?_eq_none.1 hfind p hin)
  | some x =>
      rw [hfind, Option.getD_some] at hnext
      rw [hnext] at hne ⊢
      exact hbehind.turn h.nodup hp (ready_iff.2 hstay.state) hfind hne

/-- A call keeps the running process behind one that stays. -/
theorem ListShift.behind (hshift : ListShift L current L')
    (h : Behind L q current p) (hnodup : L.Nodup) (hq : q ∈ L) (hp' : p ∈ L')
    (hq' : q ∈ L') : Behind L' q current p := by
  cases hshift with
  | same => exact h
  | join c hc => exact h.add fun heq => hc (heq ▸ hq)
  | leave c hc =>
      have hne : ∀ {x}, x ∈ L.erase c → c ≠ x := fun hx heq =>
        (hnodup.mem_erase_iff.1 hx).1 heq.symm
      exact h.leave hnodup (hne hq') hc (hne hp')

/-- A process that stays RUNNABLE gets its turn before another on the list
gets a second one. -/
theorem CpuInv.fair (h : CpuInv k R init) (hpq : p ≠ q) (hq : q ∈ R.procs)
    (hbehind : Behind R.procs q k.current p)
    (hrun : Run (StayStep p q) k (es ++ [.schedule q]) k') :
    .schedule p ∈ es := by
  induction es generalizing k R with
  | nil =>
      cases hrun with
      | cons hs hrest =>
          obtain ⟨hstep, hstay⟩ := hs
          cases hstep with
          | schedule hcall =>
              exact absurd rfl
                (h.turn hstay hbehind hcall (Ne.symm hpq)).2
  | cons e es ih =>
      cases hrun with
      | @cons _ k₁ _ _ _ hs hrest =>
          obtain ⟨hstep, hstay⟩ := hs
          have hnext : Stays p q k₁ := by
            cases es with
            | nil =>
                cases hrest with
                | cons hs _ => exact hs.2
            | cons e' es =>
                cases hrest with
                | cons hs _ => exact hs.2
          cases hstep with
          | schedule hcall =>
              rename_i fuel next s
              by_cases hne : next = p
              · rw [hne]
                exact List.mem_cons_self
              · have hturn := h.turn hstay hbehind hcall hne
                exact List.mem_cons_of_mem _
                  (ih (h.schedule hcall) hq hturn.1 hrest)
          | call hcall hcaller hidle =>
              obtain ⟨R', h', hi, hshift⟩ := h.call hcall hcaller hidle
              have hp' := h'.listed.1 hnext.listed
              have hq' : q ∈ R'.procs := by
                rcases hnext.other with hidle' | hlisted
                · rw [h'.world.tables.idleproc, hi] at hidle'
                  cases hidle'
                  exact absurd hq h.world.tables.idle_notMem
                · exact h'.listed.1 hlisted
              apply List.mem_cons_of_mem
              exact ih h' hq'
                (hshift.behind hbehind h.nodup hq hp' hq') hrest

-- ============================================================== runs

/-- In every state that a run reaches `schedule` returns; it picks a process
that is RUNNABLE, and idle only if none on proc_list is; and a process that
stays RUNNABLE from then on is picked before any other is picked for the
second time. -/
theorem round_robin (hstart : k.Start) (hrun : Run CpuStep k es k') :
    (∃ enough, ∀ fuel, enough < fuel →
        ∃ r, schedule fuel k'.current k'.world.kernel = some r)
      ∧ (∀ next k₁, CpuStep k' (.schedule next) k₁ →
        (k'.world.kernel.procs next).state = .runnable
          ∧ (k'.world.kernel.idleproc = some next →
            ∀ p, Listed k'.world.kernel p →
              (k'.world.kernel.procs p).state ≠ .runnable))
      ∧ ∀ p q k₁ k₂ es', p ≠ q → CpuStep k' (.schedule q) k₁ →
        Run (StayStep p q) k₁ (es' ++ [.schedule q]) k₂ →
        .schedule p ∈ es' := by
  obtain ⟨R, init, hinv⟩ := hstart.run hrun
  refine ⟨hinv.returns, ?_, ?_⟩
  · intro next k₁ hstep
    cases hstep with
    | schedule hcall =>
        obtain ⟨hst, hidle⟩ := hinv.pick hcall
        refine ⟨hst, ?_⟩
        intro hnext p hp
        rw [hinv.world.tables.idleproc] at hnext
        exact hidle (Option.some.inj hnext).symm p (hinv.listed.1 hp)
  · intro p q k₁ k₂ es' hpq hstep hstays
    cases hstep with
    | schedule hcall =>
        have hinv₁ := hinv.schedule hcall
        have hq : q = R.idle ∨ q ∈ R.procs := hinv₁.current
        rcases hq with hq | hq
        · -- idle is not picked while `p` is RUNNABLE
          obtain ⟨k₃, hfirst, hlast⟩ := hstays.of_concat
          obtain ⟨hstep₃, hstay⟩ := hlast
          obtain ⟨R₃, hinv₃, hi⟩ := hinv₁.run (hfirst.mono fun h => h.1)
          cases hstep₃ with
          | schedule hcall₃ =>
              obtain ⟨-, hidle⟩ := hinv₃.pick hcall₃
              exact absurd hstay.state
                (hidle (hq.trans hi.symm) p (hinv₃.listed.1 hstay.listed))
        · exact hinv₁.fair hpq hq (.inl rfl) hstays

/-- The kernel of the small run, with idle running. -/
def bootedCpu : Cpu smallMemory := { world := booted 2, current := 1 }

theorem bootedCpu_start : bootedCpu.Start :=
  ⟨booted_start, by decide +kernel⟩

/-- Init, which has just forked. -/
def forkedCpu : Cpu smallMemory :=
  { world := { kernel := forkedKernel, waits := fun _ => none }, current := 3 }

theorem forkedCpu_run : Run CpuStep bootedCpu
    [.schedule 3, .call (.fork 3 0 2)] forkedCpu := by
  have hnext : (schedule 4 1 (booted 2).kernel).map Prod.fst = some 3 := by
    decide +kernel
  obtain ⟨r, hr, hfst⟩ := Option.map_eq_some_iff.1 hnext
  obtain ⟨R, init, hinv⟩ := bootedCpu_start.inv
  have hcall : schedule 4 bootedCpu.current bootedCpu.world.kernel
      = some (3, r.2) := by
    rw [← hfst]
    exact hr
  have hs : r.2 = (booted 2).kernel := (hinv.picked hcall).2
  rw [hs] at hcall
  exact .cons (.schedule hcall)
    (.single (.call small_fork rfl (by decide +kernel)))

/-- The child that was just forked can be picked next. -/
theorem round_robin_forked : ∃ enough, ∀ fuel, enough < fuel →
    ∃ r, schedule fuel 3 forkedKernel = some r :=
  (round_robin bootedCpu_start forkedCpu_run).1

end Ucore.Process
