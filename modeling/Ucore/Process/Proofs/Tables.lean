/-
The process tables: proc_list, the hash lists, the family pointers and the
counters describe one set of processes. A `Roster` says which, and
`Tables` that the kernel's variables agree with it.

Each operation of proc.c on the tables has one lemma: a process joins
them in do_fork, leaves them in do_wait, and hands its children to init in
do_exit.
-/
import Ucore.Process.Proofs.Links
import Ucore.Process.Proofs.Pid

namespace Ucore.Process

open Ring

variable {ν : Type}

/-- The processes: idle, those on proc_list, each one's children youngest
first, and the processes of each hash list. -/
structure Roster (ν : Type) where
  idle : ν
  procs : List ν
  children : ν → List ν
  chain : BitVec 32 → List ν

/-- Every process. -/
def Roster.members (R : Roster ν) : Set ν :=
  {p | p = R.idle ∨ p ∈ R.procs}

theorem Roster.idle_mem (R : Roster ν) : R.idle ∈ R.members := .inl rfl

theorem Roster.mem_of_procs {R : Roster ν} {p : ν} (hp : p ∈ R.procs) :
    p ∈ R.members := .inr hp

variable {A : Memory ν} {s s' : State A} {R : Roster ν}
  {loose : Set ν} {p q c proc current init : ν} {pid : Int} {fuel : Nat}
  {x : Unit}

/-- The tables hold the processes of `R`. The younger-sibling pointers of
the children of `loose` may be out of date. -/
structure Tables (s : State A) (R : Roster ν) (loose : Set ν) : Prop where
  idleproc : s.idleproc = some R.idle
  list : IsRing s.links .procList (R.procs.map .listLink)
  hash : ∀ i, i.toNat < 1024 →
    IsRing s.links (.hashList i) ((R.chain i).map .hashLink)
  mem_chain : ∀ i p, p ∈ R.chain i ↔
    p ∈ R.procs ∧ pidHashfn (s.procs p).pid = i
  family : Family (kin s) R.members loose R.idle R.children
  idle_notMem : R.idle ∉ R.procs
  nrProcess : s.nrProcess = R.procs.length + 1
  pid_pos : ∀ p ∈ R.procs, 1 ≤ (s.procs p).pid ∧ (s.procs p).pid < maxPid
  pid_idle : (s.procs R.idle).pid = 0
  pid_inj : ∀ p ∈ R.procs, ∀ q ∈ R.procs,
    (s.procs p).pid = (s.procs q).pid → p = q
  pids : PidInv s R.procs
  live : ∀ p ∈ R.members, p ∈ A.live s.mem

-- ============================================================ frames

/-- The tables' own variables, and the family pointers and pids of the
processes, are as they were. -/
structure SameTables (s s' : State A) (S : Set ν) : Prop where
  links : s'.links = s.links
  nrProcess : s'.nrProcess = s.nrProcess
  lastPid : s'.lastPid = s.lastPid
  nextSafe : s'.nextSafe = s.nextSafe
  idleproc : s'.idleproc = s.idleproc
  pid : ∀ p ∈ S, (s'.procs p).pid = (s.procs p).pid
  parent : ∀ p ∈ S, (kin s').parent p = (kin s).parent p
  cptr : ∀ p ∈ S, (kin s').cptr p = (kin s).cptr p
  yptr : ∀ p ∈ S, (kin s').yptr p = (kin s).yptr p
  optr : ∀ p ∈ S, (kin s').optr p = (kin s).optr p

theorem PidInv.congr {L : List ν} (h : PidInv s L)
    (hlast : s'.lastPid = s.lastPid) (hnext : s'.nextSafe = s.nextSafe)
    (hpid : ∀ p ∈ L, (s'.procs p).pid = (s.procs p).pid) : PidInv s' L := by
  refine ⟨by rw [hlast]; exact h.nonneg, by rw [hnext]; exact h.safe, ?_⟩
  intro p hp
  rw [hpid p hp, hlast, hnext]
  exact h.gap p hp

/-- The cell before a cut of a list of links is followed by the cell after
it. -/
theorem next_links {m : Links (Entry ν)} {h : Entry ν} {f : ν → Entry ν}
    {L pre suf : List ν} (hring : IsRing m h (L.map f))
    (hL : L = pre ++ suf) :
    m.next (before h (pre.map f)) = after h (suf.map f) := by
  rw [hL, List.map_append] at hring
  exact hring.next_before

theorem Tables.congr (h : Tables s R loose) (hs : SameTables s s' R.members)
    (hlive : ∀ p ∈ R.members, p ∈ A.live s'.mem) : Tables s' R loose where
  idleproc := hs.idleproc.trans h.idleproc
  list := by rw [hs.links]; exact h.list
  hash i hi := by rw [hs.links]; exact h.hash i hi
  mem_chain i p := by
    rw [h.mem_chain]
    constructor
    · intro hp
      exact ⟨hp.1, by rw [hs.pid p (.inr hp.1)]; exact hp.2⟩
    · intro hp
      exact ⟨hp.1, by rw [← hs.pid p (.inr hp.1)]; exact hp.2⟩
  family := h.family.congr hs.parent hs.cptr hs.yptr hs.optr
  idle_notMem := h.idle_notMem
  nrProcess := hs.nrProcess.trans h.nrProcess
  pid_pos p hp := by
    rw [hs.pid p (.inr hp)]
    exact h.pid_pos p hp
  pid_idle := by
    rw [hs.pid R.idle R.idle_mem]
    exact h.pid_idle
  pid_inj p hp q hq heq := by
    rw [hs.pid p (.inr hp), hs.pid q (.inr hq)] at heq
    exact h.pid_inj p hp q hq heq
  pids := h.pids.congr hs.lastPid hs.nextSafe fun p hp => hs.pid p (.inr hp)
  live := hlive

variable [DecidableEq ν]

/-- A field of a process that no table reads. -/
theorem sameTables_update {f : ProcStruct ν A.Mm → ProcStruct ν A.Mm}
    (S : Set ν) (hkin : kin (s.update p f) = kin s)
    (hpid : (f (s.procs p)).pid = (s.procs p).pid) :
    SameTables s (s.update p f) S := by
  refine ⟨rfl, rfl, rfl, rfl, rfl, fun q _ => ?_, ?_, ?_, ?_, ?_⟩
  · rw [update_procs]
    split
    case isTrue hq => rw [hq]; exact hpid
    case isFalse => rfl
  all_goals
    intro q _
    rw [hkin]

-- ========================================================= find_proc

/-- The loop of `find_proc` finds the first process of the rest of the hash
list with the pid, and returns with fuel for that rest. -/
theorem findLoop_spec {i : BitVec 32} {C pre suf : List ν}
    (hring : IsRing s.links (.hashList i) (C.map .hashLink))
    (hC : C = pre ++ suf) :
    (∀ r, findLoop s (.hashList i) pid fuel
        (before (.hashList i) (pre.map .hashLink)) = some r →
      r = suf.find? fun p => (s.procs p).pid = pid)
    ∧ (suf.length < fuel → findLoop s (.hashList i) pid fuel
        (before (.hashList i) (pre.map .hashLink)) ≠ none) := by
  induction suf generalizing pre fuel with
  | nil =>
      cases fuel with
      | zero =>
          exact ⟨(fun _ h => by cases h), fun h => absurd h (Nat.not_lt_zero _)⟩
      | succ fuel =>
          have hnext : listNext s.links _ = _ := next_links hring hC
          rw [findLoop, hnext]
          simp
  | cons p suf ih =>
      cases fuel with
      | zero =>
          exact ⟨(fun _ h => by cases h), fun h => absurd h (Nat.not_lt_zero _)⟩
      | succ fuel =>
          have hnext : listNext s.links _ = _ := next_links hring hC
          have hC' : C = (pre ++ [p]) ++ suf := by
            rw [hC, List.append_assoc]
            rfl
          have hstep : before (.hashList i : Entry ν)
              ((pre ++ [p]).map .hashLink) = .hashLink p := by
            rw [List.map_append]
            exact before_concat _ _ _
          have hrest := @ih fuel (pre ++ [p]) hC'
          rw [hstep] at hrest
          rw [findLoop, hnext]
          simp only [List.map_cons, after_cons, le2proc]
          rw [if_pos (by rintro ⟨⟩)]
          split
          case isTrue hpid =>
              rw [List.find?_cons_of_pos (by simpa using hpid)]
              exact ⟨fun r hr => (Option.some.inj hr).symm,
                fun _ h => by cases h⟩
          case isFalse hpid =>
              rw [List.find?_cons_of_neg (by simpa using hpid)]
              refine ⟨hrest.1, fun hlen => hrest.2 ?_⟩
              rw [List.length_cons] at hlen
              omega

theorem pidHashfn_lt (pid : Int) : (pidHashfn pid).toNat < 1024 := by
  unfold pidHashfn
  rw [BitVec.toNat_ushiftRight, Nat.shiftRight_eq_div_pow]
  have hlt := (BitVec.ofInt 32 pid * 0x9e370001).isLt
  omega

theorem Tables.findLoop (h : Tables s R loose) :
    (∀ r, Process.findLoop s (.hashList (pidHashfn pid)) pid fuel
        (.hashList (pidHashfn pid)) = some r →
      r = (R.chain (pidHashfn pid)).find? fun p => (s.procs p).pid = pid)
    ∧ ((R.chain (pidHashfn pid)).length < fuel →
      Process.findLoop s (.hashList (pidHashfn pid)) pid fuel
        (.hashList (pidHashfn pid)) ≠ none) := by
  have hring := h.hash (pidHashfn pid) (pidHashfn_lt pid)
  have hcut : R.chain (pidHashfn pid) = [] ++ R.chain (pidHashfn pid) := rfl
  exact findLoop_spec hring hcut

/-- `r` is the process of the list with the pid, if there is one. -/
def Found (s : State A) (L : List ν) (pid : Int) (r : Option ν) : Prop :=
  (∀ p, r = some p → p ∈ L ∧ (s.procs p).pid = pid)
    ∧ (r = none → ∀ p ∈ L, (s.procs p).pid ≠ pid)

theorem Tables.found_find (h : Tables s R loose) :
    Found s R.procs pid
      ((R.chain (pidHashfn pid)).find? fun p => (s.procs p).pid = pid) := by
  constructor
  · intro p hp
    have hpid := List.find?_some hp
    have hmem := List.mem_of_find?_eq_some hp
    exact ⟨((h.mem_chain _ p).1 hmem).1, by simpa using hpid⟩
  · intro hnone p hp hpid
    have hall := List.find?_eq_none.1 hnone p
      ((h.mem_chain _ p).2 ⟨hp, by rw [hpid]⟩)
    exact hall (by simpa using hpid)

/-- `find_proc` leaves everything as it is and finds the process. -/
theorem Tables.findProc (h : Tables s R loose) {r : Option ν}
    (hcall : findProc fuel pid s = some (r, s')) :
    s' = s ∧ Found s R.procs pid r := by
  unfold Process.findProc at hcall
  split at hcall
  case isTrue hin =>
      simp only [Call.bind_eq_some, Call.get_eq_some,
        Call.ofOption_eq_some] at hcall
      obtain ⟨s₁, s₂, ⟨rfl, rfl⟩, hloop, rfl⟩ := hcall
      rw [h.findLoop.1 r hloop]
      exact ⟨rfl, h.found_find⟩
  case isFalse hout =>
      rw [Call.pure_eq_some] at hcall
      rw [hcall.1, hcall.2]
      refine ⟨rfl, (fun _ h => by cases h), fun _ p hp hpid => hout ?_⟩
      have hpos := h.pid_pos p hp
      rw [hpid] at hpos
      exact ⟨by omega, hpos.2⟩

/-- `find_proc` returns. -/
theorem Tables.findProc_returns (h : Tables s R loose)
    (hfuel : (R.chain (pidHashfn pid)).length < fuel) :
    ∃ r, Process.findProc fuel pid s = some (r, s) := by
  unfold Process.findProc
  split
  case isTrue =>
      have hsome := h.findLoop.2 hfuel
      obtain ⟨r, hr⟩ := Option.ne_none_iff_exists'.1 hsome
      refine ⟨r, Call.bind_eq_some.2 ⟨s, s, rfl, ?_⟩⟩
      exact Call.ofOption_eq_some.2 ⟨hr, rfl⟩
  case isFalse => exact ⟨none, rfl⟩

-- =============================================== joining and leaving

theorem nodup_of_links {m : Links (Entry ν)} {h : Entry ν} {f : ν → Entry ν}
    {L : List ν} (hring : IsRing m h (L.map f)) : L.Nodup :=
  List.Nodup.of_map f (List.nodup_cons.1 hring.nodup).2

/-- The cells of proc_list are none of a hash list's. -/
theorem list_hash_disjoint {i : BitVec 32} {L C : List ν} :
    ∀ c ∈ (.procList : Entry ν) :: L.map .listLink,
      c ∉ .hashList i :: C.map .hashLink := by
  intro c hc hmem
  cases c <;> simp_all

theorem hash_list_disjoint {i : BitVec 32} {L C : List ν} :
    ∀ c ∈ (.hashList i : Entry ν) :: C.map .hashLink,
      c ∉ .procList :: L.map .listLink := by
  intro c hc hmem
  exact list_hash_disjoint c hmem hc

/-- Two hash lists share no cell. -/
theorem Tables.hash_disjoint (h : Tables s R loose) {i j : BitVec 32}
    (hij : i ≠ j) : ∀ c ∈ Entry.hashList i :: (R.chain i).map .hashLink,
      c ∉ .hashList j :: (R.chain j).map .hashLink := by
  intro c hi hj
  cases c with
  | procList => simp at hi
  | listLink p => simp at hi
  | hashList k =>
      simp only [List.mem_cons, Entry.hashList.injEq, List.mem_map,
        reduceCtorEq, and_false, exists_false, or_false] at hi hj
      exact hij (hi.symm.trans hj)
  | hashLink p =>
      simp only [List.mem_cons, reduceCtorEq, List.mem_map,
        Entry.hashLink.injEq, exists_eq_right, false_or] at hi hj
      have hpi := ((h.mem_chain i p).1 hi).2
      have hpj := ((h.mem_chain j p).1 hj).2
      exact hij (hpi.symm.trans hpj)

/-- A process joins as the youngest child of `p`, in hash list `i`. -/
def Roster.join (R : Roster ν) (proc p : ν) (i : BitVec 32) : Roster ν :=
  { R with
    procs := proc :: R.procs
    children := Function.update (Function.update R.children proc []) p
      (proc :: R.children p)
    chain := Function.update R.chain i (proc :: R.chain i) }

theorem Roster.join_members (i : BitVec 32) :
    (R.join proc p i).members = insert proc R.members := by
  ext q
  simp only [Roster.members, Roster.join, List.mem_cons, Set.mem_ofPred_eq,
    Set.mem_insert_iff]
  tauto

theorem Roster.join_chain_self (i : BitVec 32) :
    (R.join proc p i).chain i = proc :: R.chain i :=
  Function.update_self _ _ _

theorem Roster.join_chain_ne {i j : BitVec 32} (hij : j ≠ i) :
    (R.join proc p i).chain j = R.chain j :=
  Function.update_of_ne hij _ _

theorem Roster.mem_join (i : BitVec 32) :
    q ∈ (R.join proc p i).procs ↔ q = proc ∨ q ∈ R.procs :=
  List.mem_cons

/-- A process leaves the children of `p` and hash list `i`. -/
def Roster.part (R : Roster ν) (proc p : ν) (i : BitVec 32) : Roster ν :=
  { R with
    procs := R.procs.erase proc
    children := Function.update R.children p ((R.children p).erase proc)
    chain := Function.update R.chain i ((R.chain i).erase proc) }

theorem erase_middle {pre suf : List ν} (hnd : (pre ++ c :: suf).Nodup) :
    (pre ++ c :: suf).erase c = pre ++ suf := by
  have hpre : c ∉ pre := fun hmem =>
    (List.nodup_append.1 hnd).2.2 c hmem c List.mem_cons_self rfl
  rw [List.erase_append_right _ hpre, List.erase_cons_head]

/-- What `hash_proc` and `set_links` do to the tables. -/
theorem Tables.join (h : Tables s R ∅) (hproc : proc ∉ R.members)
    (hparent : (s.procs proc).parent = some p) (hp : p ∈ R.members)
    (hcptr : (s.procs proc).cptr = none)
    (hpos : 1 ≤ (s.procs proc).pid ∧ (s.procs proc).pid < maxPid)
    (hfresh : ∀ q ∈ R.procs, (s.procs q).pid ≠ (s.procs proc).pid)
    (hlast : s.lastPid = (s.procs proc).pid)
    (hlive : proc ∈ A.live s.mem)
    (hcall : setLinks proc (s.setLinks (listAdd s.links
      (.hashList (pidHashfn (s.procs proc).pid)) (.hashLink proc)))
      = some (x, s')) :
    Tables s' (R.join proc p (pidHashfn (s.procs proc).pid)) ∅
      ∧ body s' = body s ∧ s'.mem = s.mem ∧ SameVars s s' := by
  obtain ⟨p', hp', hre⟩ := setLinks_spec hcall
  have hpp : p' = p := by
    have hpar : (s.procs proc).parent = some p' := hp'
    rw [hparent] at hpar
    exact (Option.some.inj hpar).symm
  rw [hpp] at hre
  have hbody : body s' = body s := hre.body
  have hpid : ∀ q, (s'.procs q).pid = (s.procs q).pid := fun q =>
    congrArg Body.pid (congrFun hbody q)
  have hnot : proc ∉ R.procs := fun hmem => hproc (.inr hmem)
  have hi := pidHashfn_lt (s.procs proc).pid
  have hout : ∀ j, Entry.hashLink proc ∉
      .hashList j :: (R.chain j).map .hashLink := by
    intro j hmem
    simp only [List.mem_cons, reduceCtorEq, List.mem_map,
      Entry.hashLink.injEq, exists_eq_right, false_or] at hmem
    exact hnot ((h.mem_chain j proc).1 hmem).1
  have hcell : Entry.listLink proc ∉ .procList :: R.procs.map .listLink := by
    simpa using hnot
  -- `hash_proc` first, then `set_links`
  have hlist := listAdd_ring_frame (h.hash _ hi) h.list
    (e := .hashLink proc) (by simp) hash_list_disjoint
  have hlinks := hre.links
  have hvars : SameVars s s' := ⟨hre.vars.lastPid, hre.vars.nextSafe,
    hre.vars.idleproc, hre.vars.initproc⟩
  refine ⟨?_, hbody, hre.mem, hvars⟩
  constructor
  case idleproc => exact hre.vars.idleproc.trans h.idleproc
  case list =>
      rw [hlinks]
      exact listAdd_ring_head hlist hcell
  case hash =>
      intro j hj
      rw [hlinks]
      refine listAdd_ring_frame hlist ?_ (by simp) list_hash_disjoint
      by_cases hij : j = pidHashfn (s.procs proc).pid
      · rw [hij, Roster.join_chain_self]
        exact listAdd_ring_head (h.hash _ hi) (hout _)
      · rw [Roster.join_chain_ne hij]
        exact listAdd_ring_frame (h.hash _ hi) (h.hash j hj) (hout j)
          (h.hash_disjoint (Ne.symm hij))
  case mem_chain =>
      intro j q
      rw [hpid q, Roster.mem_join]
      by_cases hij : j = pidHashfn (s.procs proc).pid
      · rw [hij, Roster.join_chain_self, List.mem_cons, h.mem_chain]
        constructor
        · intro hq
          rcases hq with rfl | hq
          · exact ⟨.inl rfl, rfl⟩
          · exact ⟨.inr hq.1, hq.2⟩
        · intro hq
          exact hq.1.imp_right fun hmem => ⟨hmem, hq.2⟩
      · rw [Roster.join_chain_ne hij, h.mem_chain]
        constructor
        · exact fun hq => ⟨.inr hq.1, hq.2⟩
        · intro hq
          rcases hq.1 with rfl | hmem
          · exact absurd hq.2.symm hij
          · exact ⟨hmem, hq.2⟩
  case family =>
      rw [hre.kin, Roster.join_members]
      exact h.family.enter hproc hp R.idle_mem hparent hcptr
  case idle_notMem =>
      intro hmem
      rcases List.mem_cons.1 hmem with heq | hmem
      · exact hproc (.inl heq.symm)
      · exact h.idle_notMem hmem
  case nrProcess =>
      have hn : s'.nrProcess = s.nrProcess + 1 := hre.nrProcess
      rw [hn, h.nrProcess]
      show _ = ((proc :: R.procs).length : Int) + 1
      rw [List.length_cons]
      omega
  case pid_pos =>
      intro q hq
      rw [hpid q]
      rcases List.mem_cons.1 hq with rfl | hq
      · exact hpos
      · exact h.pid_pos q hq
  case pid_idle => exact (hpid R.idle).trans h.pid_idle
  case pid_inj =>
      intro q hq r hr heq
      rw [hpid q, hpid r] at heq
      rcases (Roster.mem_join _).1 hq with hqp | hq
      · rcases (Roster.mem_join _).1 hr with hrp | hr
        · exact hqp.trans hrp.symm
        · exact absurd (hqp ▸ heq.symm) (hfresh r hr)
      · rcases (Roster.mem_join _).1 hr with hrp | hr
        · exact absurd (hrp ▸ heq) (hfresh q hq)
        · exact h.pid_inj q hq r hr heq
  case pids =>
      have hinv : PidInv s' R.procs := h.pids.congr hre.vars.lastPid
        hre.vars.nextSafe fun q _ => hpid q
      refine ⟨hinv.nonneg, hinv.safe, fun q hq => ?_⟩
      rcases List.mem_cons.1 hq with rfl | hq
      · have hl : s'.lastPid = s.lastPid := hre.vars.lastPid
        rw [hpid q, hl, hlast]
        omega
      · exact hinv.gap q hq
  case live =>
      intro q hq
      have hmem : s'.mem = s.mem := hre.mem
      rw [Roster.join_members] at hq
      rw [hmem]
      rcases Set.mem_insert_iff.1 hq with rfl | hq
      · exact hlive
      · exact h.live q hq

theorem Roster.part_chain_self (i : BitVec 32) :
    (R.part proc p i).chain i = (R.chain i).erase proc :=
  Function.update_self _ _ _

theorem Roster.part_chain_ne {i j : BitVec 32} (hij : j ≠ i) :
    (R.part proc p i).chain j = R.chain j :=
  Function.update_of_ne hij _ _

theorem Tables.nodup (h : Tables s R loose) : R.procs.Nodup :=
  nodup_of_links h.list

theorem Tables.mem_part (h : Tables s R loose) (i : BitVec 32) :
    q ∈ (R.part proc p i).procs ↔ q ∈ R.procs ∧ q ≠ proc := by
  have hmem : q ∈ R.procs.erase proc ↔ q ≠ proc ∧ q ∈ R.procs :=
    h.nodup.mem_erase_iff
  exact hmem.trans and_comm

theorem Tables.part_members (h : Tables s R loose) (hproc : proc ∈ R.procs)
    (i : BitVec 32) :
    (R.part proc p i).members = R.members \ {proc} := by
  ext q
  have hidle : q = R.idle → q ≠ proc := by
    intro hq heq
    exact h.idle_notMem (hq ▸ heq ▸ hproc)
  constructor
  · intro hq
    rcases hq with hq | hq
    · exact ⟨.inl hq, hidle hq⟩
    · have hmem := (h.mem_part i).1 hq
      exact ⟨.inr hmem.1, hmem.2⟩
  · intro hq
    rcases hq.1 with hidle | hmem
    · exact .inl hidle
    · exact .inr ((h.mem_part i).2 ⟨hmem, hq.2⟩)

/-- What `unhash_proc` and `remove_links` do to the tables, for a process
without children. -/
theorem Tables.part (h : Tables s R ∅) (hproc : proc ∈ R.procs)
    (hp : p ∈ R.members) (hchild : proc ∈ R.children p)
    (hempty : R.children proc = [])
    (hcall : removeLinks proc (s.setLinks (listDel s.links
      (.hashLink proc))) = some (x, s')) :
    Tables s' (R.part proc p (pidHashfn (s.procs proc).pid)) ∅
      ∧ body s' = body s ∧ s'.mem = s.mem ∧ SameVars s s' := by
  have hfam := h.family
  obtain ⟨hlivep, hroot, hparent⟩ := hfam.child p hp proc hchild
  obtain ⟨pre, suf, hch⟩ := List.append_of_mem hchild
  have hndch : (pre ++ proc :: suf).Nodup := hch ▸ hfam.nodup p hp
  have hself : (s.procs proc).optr ≠ some proc := by
    have holder := hfam.older p hp
    rw [hch, older_append] at holder
    have hopt : (s.procs proc).optr = suf.head?.or none := holder.2.1
    rw [hopt, Option.or_none]
    intro heq
    have hnd := List.nodup_cons.1 (List.nodup_append.1 hndch).2.1
    exact hnd.1 (List.mem_of_mem_head? heq)
  have hre := removeLinks_spec (p := p) (by exact hparent) (by exact hself)
    hcall
  have hbody : body s' = body s := hre.body
  have hpid : ∀ q, (s'.procs q).pid = (s.procs q).pid := fun q =>
    congrArg Body.pid (congrFun hbody q)
  have hi := pidHashfn_lt (s.procs proc).pid
  have hmemi : proc ∈ R.chain (pidHashfn (s.procs proc).pid) :=
    (h.mem_chain _ proc).2 ⟨hproc, rfl⟩
  -- the cuts of the two lists
  obtain ⟨cpre, csuf, hchain⟩ := List.append_of_mem hmemi
  obtain ⟨lpre, lsuf, hlist⟩ := List.append_of_mem hproc
  have hndc : (R.chain (pidHashfn (s.procs proc).pid)).Nodup :=
    nodup_of_links (h.hash _ hi)
  have herasec : (R.chain (pidHashfn (s.procs proc).pid)).erase proc
      = cpre ++ csuf := by
    rw [hchain] at hndc ⊢
    exact erase_middle hndc
  have herasel : R.procs.erase proc = lpre ++ lsuf := by
    have hnd := h.nodup
    rw [hlist] at hnd ⊢
    exact erase_middle hnd
  have hhash := h.hash _ hi
  rw [hchain, List.map_append, List.map_cons] at hhash
  have hlistring : IsRing (listDel s.links (.hashLink proc)) .procList
      (R.procs.map .listLink) := by
    refine listDel_ring_frame hhash h.list ?_
    rw [← List.map_cons, ← List.map_append, ← hchain]
    exact hash_list_disjoint
  rw [hlist, List.map_append, List.map_cons] at hlistring
  have hlinks := hre.links
  have hvars : SameVars s s' := ⟨hre.vars.lastPid, hre.vars.nextSafe,
    hre.vars.idleproc, hre.vars.initproc⟩
  refine ⟨?_, hbody, hre.mem, hvars⟩
  constructor
  case idleproc => exact hvars.idleproc.trans h.idleproc
  case list =>
      rw [hlinks]
      show IsRing _ _ ((R.procs.erase proc).map _)
      rw [herasel, List.map_append]
      exact listDel_ring hlistring
  case hash =>
      intro j hj
      rw [hlinks]
      refine listDel_ring_frame hlistring ?_ ?_
      · by_cases hij : j = pidHashfn (s.procs proc).pid
        · rw [hij, Roster.part_chain_self, herasec, List.map_append]
          exact listDel_ring hhash
        · rw [Roster.part_chain_ne hij]
          refine listDel_ring_frame hhash (h.hash j hj) ?_
          rw [← List.map_cons, ← List.map_append, ← hchain]
          exact h.hash_disjoint (Ne.symm hij)
      · rw [← List.map_cons, ← List.map_append, ← hlist]
        exact list_hash_disjoint
  case mem_chain =>
      intro j q
      rw [hpid q, h.mem_part]
      by_cases hij : j = pidHashfn (s.procs proc).pid
      · rw [hij, Roster.part_chain_self, hndc.mem_erase_iff, h.mem_chain]
        tauto
      · rw [Roster.part_chain_ne hij, h.mem_chain]
        constructor
        · intro hq
          refine ⟨⟨hq.1, ?_⟩, hq.2⟩
          intro heq
          exact hij (heq ▸ hq.2.symm)
        · exact fun hq => ⟨hq.1.1, hq.2⟩
  case family =>
      rw [hre.kin, h.part_members hproc]
      show Family _ _ _ _
        (Function.update R.children p ((R.children p).erase proc))
      rw [hch, erase_middle hndch]
      exact hfam.leave hp hch hempty
  case idle_notMem => exact fun hmem => h.idle_notMem ((h.mem_part _).1 hmem).1
  case nrProcess =>
      have hn : s'.nrProcess = s.nrProcess - 1 := hre.nrProcess
      have hlen := List.length_erase_of_mem hproc
      have hpos := List.length_pos_of_mem hproc
      rw [hn, h.nrProcess]
      show _ = ((R.procs.erase proc).length : Int) + 1
      omega
  case pid_pos =>
      intro q hq
      rw [hpid q]
      exact h.pid_pos q ((h.mem_part _).1 hq).1
  case pid_idle => exact (hpid R.idle).trans h.pid_idle
  case pid_inj =>
      intro q hq r hr heq
      rw [hpid q, hpid r] at heq
      exact h.pid_inj q ((h.mem_part _).1 hq).1 r ((h.mem_part _).1 hr).1 heq
  case pids =>
      have hinv : PidInv s' R.procs := h.pids.congr hvars.lastPid
        hvars.nextSafe fun q _ => hpid q
      exact ⟨hinv.nonneg, hinv.safe, fun q hq =>
        hinv.gap q ((h.mem_part _).1 hq).1⟩
  case live =>
      intro q hq
      have hmem : s'.mem = s.mem := hre.mem
      rw [h.part_members hproc] at hq
      rw [hmem]
      exact h.live q hq.1

-- ======================================================= reparenting

/-- A process that is made runnable. -/
def Body.wake {μ : Type} (b : Body μ) : Body μ :=
  { b with state := .runnable, waitState := 0 }

/-- The links, the counters and the memory are as they were, and what the
processes are apart from their family pointers is `b`. -/
structure Touches (s s' : State A) (b : ν → Body A.Mm) : Prop where
  kin : kin s' = kin s
  links : s'.links = s.links
  nrProcess : s'.nrProcess = s.nrProcess
  body : body s' = b
  mem : s'.mem = s.mem
  vars : SameVars s s'

/-- `wakeup_proc`, of a process that has no wait state when it is
runnable. -/
theorem wakeupProc_spec
    (hrun : (s.procs p).state = .runnable → (s.procs p).waitState = 0)
    (hcall : wakeupProc p s = some (x, s')) :
    Touches s s' (Function.update (body s) p (body s p).wake)
      ∧ (s.procs p).state ≠ .zombie := by
  simp only [wakeupProc, Call.bind_eq_some, Call.get_eq_some,
    Call.assert_eq_some] at hcall
  obtain ⟨s₁, s₂, ⟨rfl, rfl⟩, u, s₃, ⟨hz, rfl⟩, hcall⟩ := hcall
  refine ⟨?_, hz⟩
  split at hcall
  case isTrue hne =>
      rw [Process.update, Call.modify_eq_some] at hcall
      rw [hcall]
      refine ⟨kin_update _ _ rfl rfl rfl rfl, rfl, rfl, ?_, rfl,
        update_sameVars _ _ _⟩
      funext q
      rw [Function.update_apply]
      split
      case isTrue hq => rw [hq, body_update_self]; rfl
      case isFalse hq => exact body_update_of_ne _ _ _ hq
  case isFalse heq =>
      rw [Call.pure_eq_some] at hcall
      rw [hcall.2]
      have hstate : (s₃.procs p).state = .runnable := not_not.1 heq
      refine ⟨rfl, rfl, rfl, ?_, rfl, .refl _⟩
      symm
      apply Function.update_eq_self_iff.2
      show _ = body s₃ p
      have hws := hrun hstate
      unfold body Body.wake
      simp only [hstate, hws]

/-- The first child of `current` becomes a child of `init`. -/
def Roster.adopt (R : Roster ν) (current init proc : ν) (suf : List ν) :
    Roster ν :=
  { R with
    children := Function.update (Function.update R.children current suf)
      init (proc :: R.children init) }

/-- All children of `current` become children of `init`, the youngest
first. -/
def Roster.reparent (R : Roster ν) (current init : ν) : Roster ν :=
  { R with
    children := Function.update (Function.update R.children current [])
      init ((R.children current).reverse ++ R.children init) }

theorem Roster.reparent_nil (hch : R.children current = []) :
    R.reparent current init = R := by
  unfold Roster.reparent
  have hsame : Function.update R.children current [] = R.children :=
    Function.update_eq_self_iff.2 hch.symm
  rw [hch, List.reverse_nil, List.nil_append, hsame,
    Function.update_eq_self]

theorem Roster.reparent_adopt {suf : List ν} (hne : init ≠ current)
    (hch : R.children current = proc :: suf) :
    (R.adopt current init proc suf).reparent current init
      = R.reparent current init := by
  unfold Roster.reparent Roster.adopt
  dsimp only
  congr 1
  funext q
  simp only [Function.update_apply, hch, if_neg hne, if_neg (Ne.symm hne),
    if_true, List.reverse_cons, List.append_assoc, List.cons_append,
    List.nil_append]
  split
  case isTrue => rfl
  case isFalse => split <;> rfl

/-- The pointers of one round of the loop of `do_exit`. -/
theorem adopt_spec {t t' : State A} (hne : init ≠ current)
    (ht : t = (s.update current fun q =>
      { q with cptr := (s.procs proc).optr }).update proc
        fun q => { q with yptr := none })
    (hcall : storeYptr (t.procs init).cptr (some proc)
      (t.update proc fun q => { q with optr := (t.procs init).cptr })
        = some (x, t')) :
    Relinks s ((t'.update proc fun q =>
        { q with parent := some init }).update init
          fun q => { q with cptr := some proc })
      ((kin s).adopt current init proc) s.links s.nrProcess := by
  have ht' : Relinks s t (((kin s).setCptr current
      ((kin s).optr proc)).setYptr proc none) s.links s.nrProcess := by
    rw [ht]
    exact (Relinks.refl s).setCptr.setYptr
  have hcptr : (t.procs init).cptr = (((kin s).setCptr current
      ((kin s).optr proc)).setYptr proc none).cptr init :=
    congrFun (congrArg Kin.cptr ht'.kin) init
  have hre := (ht'.setOptr.storeYptr hcall).setParent (p := proc)
    (v := some init)
  have hadopt := hre.setCptr (p := init) (v := some proc)
  rw [hcptr] at hadopt
  exact hadopt

/-- One round of the loop keeps the tables. -/
theorem Tables.adopt (h : Tables s R {current}) {suf : List ν}
    (hcur : current ∈ R.members) (himem : init ∈ R.members)
    (hne : init ≠ current) (hch : R.children current = proc :: suf)
    (hre : Relinks s s' ((kin s).adopt current init proc) s.links
      s.nrProcess) :
    Tables s' (R.adopt current init proc suf) {current} where
  idleproc := hre.vars.idleproc.trans h.idleproc
  list := by rw [hre.links]; exact h.list
  hash i hi := by rw [hre.links]; exact h.hash i hi
  mem_chain i p := by
    have hpid : (s'.procs p).pid = (s.procs p).pid :=
      congrArg Body.pid (congrFun hre.body p)
    rw [hpid]
    exact h.mem_chain i p
  family := by
    rw [hre.kin]
    exact h.family.adopt hcur himem hne hch
  idle_notMem := h.idle_notMem
  nrProcess := hre.nrProcess.trans h.nrProcess
  pid_pos p hp := by
    have hpid : (s'.procs p).pid = (s.procs p).pid :=
      congrArg Body.pid (congrFun hre.body p)
    rw [hpid]
    exact h.pid_pos p hp
  pid_idle := (congrArg Body.pid (congrFun hre.body R.idle)).trans h.pid_idle
  pid_inj p hp q hq heq := by
    have hpid : ∀ r, (s'.procs r).pid = (s.procs r).pid := fun r =>
      congrArg Body.pid (congrFun hre.body r)
    rw [hpid, hpid] at heq
    exact h.pid_inj p hp q hq heq
  pids := h.pids.congr hre.vars.lastPid hre.vars.nextSafe fun r _ =>
    congrArg Body.pid (congrFun hre.body r)
  live p hp := by
    rw [hre.mem]
    exact h.live p hp

theorem Touches.sameTables {b : ν → Body A.Mm} (h : Touches s s' b)
    (hpid : ∀ p, (b p).pid = (s.procs p).pid) (S : Set ν) :
    SameTables s s' S := by
  refine ⟨h.links, h.nrProcess, h.vars.lastPid, h.vars.nextSafe,
    h.vars.idleproc, fun p _ => ?_, ?_, ?_, ?_, ?_⟩
  · have hbody := congrArg Body.pid (congrFun h.body p)
    exact hbody.trans (hpid p)
  all_goals
    intro p _
    rw [h.kin]

/-- Waking a process keeps the tables. -/
theorem Tables.wake (h : Tables s R loose)
    (ht : Touches s s' (Function.update (body s) p (body s p).wake)) :
    Tables s' R loose := by
  refine h.congr (ht.sameTables (fun q => ?_) _) fun q hq => ?_
  · rw [Function.update_apply]
    split
    case isTrue hq => rw [hq]; rfl
    case isFalse => rfl
  · rw [ht.mem]
    exact h.live q hq

/-- A process is as it was, or woken. -/
def MayWake {μ : Type} (b b' : Body μ) : Prop :=
  b' = b ∨ b' = b.wake ∧ b.state ≠ .zombie

theorem MayWake.refl {μ : Type} (b : Body μ) : MayWake b b := .inl rfl

theorem MayWake.trans {μ : Type} {b b' b'' : Body μ} (h : MayWake b b')
    (h' : MayWake b' b'') : MayWake b b'' := by
  rcases h with rfl | ⟨rfl, hz⟩
  · exact h'
  · rcases h' with rfl | ⟨rfl, -⟩
    · exact .inr ⟨rfl, hz⟩
    · exact .inr ⟨rfl, hz⟩

/-- One that still waits for a child was not woken. -/
theorem MayWake.same {μ : Type} {b b' : Body μ} (h : MayWake b b')
    (hws : b'.waitState = wtChild) : b' = b := by
  rcases h with h | h
  · exact h
  · rw [h.1] at hws
    have hzero : (0 : BitVec 32) = wtChild := hws
    exact absurd hzero (by decide)

/-- What else the loop of `do_exit` does: it wakes `init` if one of the
processes `cs` is a zombie and `init` waits for a child. -/
structure Wakes (s s' : State A) (init : ν) (cs : List ν) : Prop where
  mem : s'.mem = s.mem
  vars : SameVars s s'
  other : ∀ q, q ≠ init → body s' q = body s q
  woken : MayWake (body s init) (body s' init)
  asked : (s'.procs init).waitState = wtChild →
    ∀ c ∈ cs, (s.procs c).state ≠ .zombie

theorem Wakes.trans {t : State A} {cs : List ν} (h : Wakes s t init [c])
    (h' : Wakes t s' init cs) (hcs : ∀ d ∈ cs, d ≠ init) :
    Wakes s s' init (c :: cs) where
  mem := h'.mem.trans h.mem
  vars := h.vars.trans h'.vars
  other q hq := (h'.other q hq).trans (h.other q hq)
  woken := h.woken.trans h'.woken
  asked := by
    intro hws d hd
    have hsame : body s' init = body t init := h'.woken.same hws
    have hwst : (t.procs init).waitState = wtChild :=
      (congrArg Body.waitState hsame).symm.trans hws
    rcases List.mem_cons.1 hd with rfl | hd
    · exact h.asked hwst d (List.mem_singleton.2 rfl)
    · have hstate : (t.procs d).state = (s.procs d).state :=
        congrArg Body.state (h.other d (hcs d hd))
      rw [← hstate]
      exact h'.asked hws d hd

/-- The loop of `do_exit`. -/
theorem Tables.reparent (h : Tables s R {current})
    (hcur : current ∈ R.members) (hinit : s.initproc = some init)
    (himem : init ∈ R.members) (hne : init ≠ current)
    (hnotin : ∀ c ∈ R.children current, c ≠ init)
    (hrun : (s.procs init).state = .runnable →
      (s.procs init).waitState = 0)
    (hcall : Process.reparent current fuel s = some (x, s')) :
    Tables s' (R.reparent current init) ∅
      ∧ Wakes s s' init (R.children current) := by
  induction fuel generalizing s R with
  | zero => exact absurd hcall Call.panic_ne_some
  | succ fuel ih =>
      simp only [Process.reparent, Call.bind_eq_some, Call.get_eq_some]
        at hcall
      obtain ⟨s₁, s₂, ⟨rfl, rfl⟩, hcall⟩ := hcall
      have hhead : (s₂.procs current).cptr = (R.children current).head? :=
        h.family.head current hcur
      cases hch : R.children current with
      | nil =>
          rw [hhead, hch] at hcall
          simp only [List.head?_nil, Call.pure_eq_some] at hcall
          rw [hcall.2, Roster.reparent_nil hch]
          have hfam := h.family.tighten fun p hp => by
            rw [Set.mem_singleton_iff.1 hp]
            exact hch
          refine ⟨{ h with family := hfam }, rfl, .refl _, fun _ _ => rfl,
            .refl _, fun _ c hc => ?_⟩
          cases hc
      | cons proc suf =>
          rw [hhead, hch] at hcall
          simp only [List.head?_cons, Call.bind_eq_some,
            Call.ofOption_eq_some, Process.update, Call.modify_eq_some,
            Call.get_eq_some] at hcall
          obtain ⟨i, s₃, ⟨hi, rfl⟩, -, s₄, rfl, -, s₅, hs₅, s₆, s₇, ⟨rfl, rfl⟩,
            -, s₈, rfl, u, s₉, hold, -, s₁₀, rfl, -, s₁₁, hs₁₁, s₁₂, s₁₃,
            ⟨rfl, rfl⟩, hrest⟩ := hcall
          rw [hinit, Option.some.injEq] at hi
          rw [← hi] at hold hs₁₁ hrest
          have hre := adopt_spec hne hs₅ hold
          rw [← hs₁₁] at hre
          have hround := h.adopt hcur himem hne hch hre
          have hbody : body s₁₃ = body s₃ := hre.body
          have hfield := congrFun hbody
          have hproc : proc ∈ R.children current := by
            rw [hch]
            exact List.mem_cons_self
          have hsuf : (R.adopt current init proc suf).children current
              = suf :=
            (Function.update_of_ne (Ne.symm hne) _ _).trans
              (Function.update_self _ _ _)
          have hrun' : (s₁₃.procs init).state = .runnable →
              (s₁₃.procs init).waitState = 0 := by
            intro hstate
            have hws : (s₁₃.procs init).waitState
                = (s₃.procs init).waitState :=
              congrArg Body.waitState (hfield init)
            rw [hws]
            exact hrun ((congrArg Body.state (hfield init)).symm.trans hstate)
          -- the rest of the loop, from a state in which init may be woken
          have hgo : ∀ t, Tables t (R.adopt current init proc suf) {current} →
              Wakes s₃ t init [proc] →
              ((t.procs init).state = .runnable →
                (t.procs init).waitState = 0) →
              Process.reparent current fuel t = some (x, s') →
              Tables s' (R.reparent current init) ∅
                ∧ Wakes s₃ s' init (proc :: suf) := by
            intro t ht hw hrunt hloop
            have hnot : ∀ c ∈ suf, c ≠ init := fun c hc =>
              hnotin c (by rw [hch]; exact List.mem_cons_of_mem _ hc)
            have hspec := ih ht hcur (hw.vars.initproc.trans hinit) himem
              (by rw [hsuf]; exact hnot) hrunt hloop
            rw [Roster.reparent_adopt hne hch, hsuf] at hspec
            exact ⟨hspec.1, hw.trans hspec.2 hnot⟩
          split at hrest
          case isTrue hz =>
              rw [Call.bind_eq_some] at hrest
              obtain ⟨u', t, hwake, hloop⟩ := hrest
              obtain ⟨ht, hnz⟩ := wakeupProc_spec hrun' hwake
              have hbt : body t init = (body s₃ init).wake := by
                rw [ht.body, Function.update_self, hbody]
              have hnz₃ : (s₃.procs init).state ≠ .zombie := by
                have hst : (s₁₃.procs init).state = (s₃.procs init).state :=
                  congrArg Body.state (hfield init)
                rw [← hst]
                exact hnz
              refine hgo t (hround.wake ht) ?_ ?_ hloop
              · refine ⟨ht.mem.trans hre.mem, hre.vars.trans ht.vars, ?_,
                  .inr ⟨hbt, hnz₃⟩, fun hws => ?_⟩
                · intro q hq
                  rw [ht.body, Function.update_of_ne hq, hbody]
                · have hzero : (t.procs init).waitState = 0 :=
                    congrArg Body.waitState hbt
                  rw [hzero] at hws
                  exact absurd hws (by decide)
              · intro _
                exact congrArg Body.waitState hbt
          case isFalse hz =>
              refine hgo s₁₃ hround ?_ hrun' hrest
              refine ⟨hre.mem, hre.vars, fun q _ => hfield q,
                .inl (hfield init), fun hws c hc hzombie => hz ⟨?_, hws⟩⟩
              rw [List.mem_singleton.1 hc] at hzombie
              exact (congrArg Body.state (hfield proc)).trans hzombie

end Ucore.Process
