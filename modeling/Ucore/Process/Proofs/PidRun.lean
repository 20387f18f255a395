/-
`get_pid` returns in every state that a run reaches.

With no more than MAX_PROCESS processes some pid is free. The scan goes to
`repeat` only after it has passed a pid in use, so every round of it brings
`last_pid` nearer to the free one, on the way round from MAX_PID to 1
(`distance`).
-/
import Ucore.Process.Proofs.System
import Mathlib.Order.Interval.Finset.Basic
import Mathlib.Data.Int.Interval

namespace Ucore.Process

open Ring

variable {ν : Type} {A : Memory ν} {s : State A} {w w' : World A}
  {f lastPid nextSafe : Int} {fuel rounds : Nat} {ls : List (Label ν)}
  {L pre suf : List ν}

-- ======================================================== a free pid

/-- A pid that no process of the list has. -/
structure FreePid (s : State A) (L : List ν) (f : Int) : Prop where
  one_le : 1 ≤ f
  lt : f < maxPid
  free : ∀ p ∈ L, (s.procs p).pid ≠ f

/-- There are more pids than processes. -/
theorem exists_freePid (hlen : (L.length : Int) < maxPid - 1) :
    ∃ f, FreePid s L f := by
  let used : Finset Int := (L.map fun p => (s.procs p).pid).toFinset
  have hused : used.card ≤ L.length := by
    have hcard := List.toFinset_card_le (L.map fun p => (s.procs p).pid)
    rwa [List.length_map] at hcard
  have hall : (Finset.Ico 1 maxPid).card = 8191 := by
    rw [Int.card_Ico]
    decide
  have hmax : maxPid = 8192 := by decide
  have hlt : used.card < (Finset.Ico 1 maxPid).card := by
    rw [hall]
    omega
  obtain ⟨f, hin, hout⟩ := Finset.exists_mem_notMem_of_card_lt_card hlt
  obtain ⟨hone, hlt⟩ := Finset.mem_Ico.1 hin
  refine ⟨f, hone, hlt, ?_⟩
  intro p hp heq
  apply hout
  rw [List.mem_toFinset, List.mem_map]
  exact ⟨p, hp, heq⟩

-- ======================================================== the search

/-- How many steps `last_pid` is from a pid, going round. -/
def distance (f lastPid : Int) : Int :=
  if lastPid ≤ f then f - lastPid else f - lastPid + (maxPid - 1)

theorem distance_nonneg (hone : 1 ≤ f) (hlt : lastPid < maxPid) :
    0 ≤ distance f lastPid := by
  unfold distance
  split
  case isTrue h => omega
  case isFalse h => omega

theorem distance_le (hone : 1 ≤ lastPid) (hlt : f < maxPid) :
    distance f lastPid < maxPid := by
  unfold distance
  split
  case isTrue h => omega
  case isFalse h => omega

/-- The step from a pid in use. -/
theorem distance_succ (hne : lastPid ≠ f) :
    distance f (lastPid + 1) < distance f lastPid := by
  unfold distance
  split
  case isTrue h => rw [if_pos (by omega)]; omega
  case isFalse h => rw [if_neg (by omega)]; omega

/-- The step from the last pid. -/
theorem distance_one (hone : 1 ≤ f) (hlt : f < maxPid)
    (hlast : maxPid ≤ lastPid + 1) (hne : lastPid ≠ f)
    (hin : lastPid < maxPid) :
    distance f 1 < distance f lastPid := by
  unfold distance
  rw [if_pos hone, if_neg (by omega)]
  omega

variable [DecidableEq ν]

/-- The scan ends, and goes to `repeat` nearer to a free pid. -/
theorem pidScan_returns
    (hring : IsRing s.links .procList (L.map .listLink))
    (hL : L = pre ++ suf) (hfuel : suf.length < fuel)
    (hfree : FreePid s L f) (hlt : lastPid < nextSafe)
    (hsafe : nextSafe ≤ maxPid) :
    ∃ l n again, pidScan s fuel (before .procList (pre.map .listLink))
        lastPid nextSafe = some (l, n, again)
      ∧ (again = true → distance f l < distance f lastPid) := by
  induction suf generalizing pre lastPid nextSafe fuel with
  | nil =>
      cases fuel with
      | zero => cases hfuel
      | succ fuel =>
          have hnext : listNext s.links _ = _ := next_cut hring hL
          rw [pidScan, hnext]
          exact ⟨_, _, _, rfl, fun h => by cases h⟩
  | cons p suf ih =>
      cases fuel with
      | zero => cases hfuel
      | succ fuel =>
          have hnext : listNext s.links _ = _ := next_cut hring hL
          have hL' : L = (pre ++ [p]) ++ suf := by
            rw [hL, List.append_assoc]
            rfl
          have hp : (s.procs p).pid ≠ f := by
            apply hfree.free
            rw [hL]
            exact List.mem_append_right pre List.mem_cons_self
          have hstep : before (.procList : Entry ν)
              ((pre ++ [p]).map .listLink) = .listLink p := before_step p
          have hrest : suf.length < fuel := Nat.lt_of_succ_lt_succ hfuel
          rw [pidScan, hnext]
          simp only [List.map_cons, after_cons, le2proc]
          rw [if_pos (by rintro ⟨⟩), ← hstep]
          split
          case isTrue heq =>
              have hne : lastPid ≠ f := heq ▸ hp
              split
              case isTrue hge =>
                  refine ⟨_, _, _, rfl, fun _ => ?_⟩
                  split
                  case isTrue hmax =>
                      exact distance_one hfree.one_le hfree.lt hmax hne
                        (by omega)
                  case isFalse hmax => exact distance_succ hne
              case isFalse hge =>
                  obtain ⟨l, n, again, hscan, hnear⟩ :=
                    ih hL' hrest (Int.not_le.1 hge) hsafe
                  refine ⟨l, n, again, hscan, fun h => ?_⟩
                  have hless := distance_succ hne
                  have hnear' := hnear h
                  omega
          case isFalse hne =>
              split
              case isTrue hin => exact ih hL' hrest hin.1 (by omega)
              case isFalse hout => exact ih hL' hrest hlt hsafe

/-- `get_pid` from `repeat` on returns. -/
theorem pidRepeat_returns
    (hring : IsRing s.links .procList (L.map .listLink))
    (hfuel : L.length < fuel) (hfree : FreePid s L f)
    (hone : 1 ≤ lastPid) (hlt : lastPid < maxPid)
    (hrounds : distance f lastPid < rounds) :
    ∃ r, pidRepeat s fuel rounds lastPid maxPid = some r := by
  induction rounds generalizing lastPid with
  | zero =>
      have hnonneg : 0 ≤ distance f lastPid :=
        distance_nonneg hfree.one_le hlt
      omega
  | succ rounds ih =>
      obtain ⟨l, n, again, hscan, hnear⟩ :=
        @pidScan_returns _ _ s f lastPid maxPid fuel L [] L _ hring rfl hfuel
          hfree hlt (le_refl _)
      have hseen : NoPid s ([] : List ν) lastPid maxPid := fun _ h => by cases h
      obtain ⟨hone', hlt', hsafe', hagain, -⟩ :=
        pidScan_spec hring rfl hseen hlt (le_refl _) hone hscan
      have hstart : pidScan s fuel .procList lastPid maxPid
          = some (l, n, again) := hscan
      rw [pidRepeat, hstart]
      cases again with
      | true =>
          have hn := hagain rfl
          have hless := hnear rfl
          subst hn
          exact ih hone' hlt' (by omega)
      | false => exact ⟨(l, n), rfl⟩

/-- `get_pid` returns. -/
theorem getPid_returns
    (hring : IsRing s.links .procList (L.map .listLink))
    (hinv : PidInv s L) (hlen : (L.length : Int) < maxPid - 1)
    (hfuel : maxPid.toNat ≤ fuel) :
    ∃ pid s', getPid fuel s = some (pid, s') := by
  obtain ⟨f, hfree⟩ := exists_freePid (s := s) hlen
  have hmax : maxPid = 8192 := by decide
  have hreturns : ∀ {lastPid : Int}, 1 ≤ lastPid → lastPid < maxPid →
      ∃ r, pidRepeat s fuel fuel lastPid maxPid = some r := by
    intro lastPid hone hlt
    have hle : distance f lastPid < maxPid := distance_le hone hfree.lt
    exact pidRepeat_returns hring (by omega) hfree hone hlt (by omega)
  have hnonneg := hinv.nonneg
  have hsearch : ∃ r, (if maxPid ≤ s.lastPid + 1 then
      pidRepeat s fuel fuel 1 maxPid
      else if s.nextSafe ≤ s.lastPid + 1 then
        pidRepeat s fuel fuel (s.lastPid + 1) maxPid
      else some (s.lastPid + 1, s.nextSafe)) = some r := by
    split
    case isTrue => exact hreturns (by decide) (by decide)
    case isFalse hlt =>
        split
        case isTrue => exact hreturns (by omega) (by omega)
        case isFalse => exact ⟨_, rfl⟩
  obtain ⟨r, hr⟩ := hsearch
  refine ⟨r.1, { s with lastPid := r.1, nextSafe := r.2 }, ?_⟩
  simp only [getPid, Call.bind_eq_some, Call.get_eq_some,
    Call.ofOption_eq_some, Call.modify_eq_some, Call.pure_eq_some]
  exact ⟨s, s, ⟨rfl, rfl⟩, r, s, ⟨hr, rfl⟩, (), _, rfl, rfl, rfl⟩

-- ========================================================== in a run

/-- In every state that a run reaches, no process of proc_list has a pid
strictly between `last_pid` and `next_safe`, and with no more than
MAX_PROCESS processes `get_pid` returns a pid that none of them has. -/
theorem get_pid_unique (hstart : Start w) (hrun : Run Step w ls w') :
    ∃ L : List ν, IsRing w'.kernel.links .procList (L.map .listLink)
      ∧ (∀ p ∈ L, ¬ (w'.kernel.lastPid < (w'.kernel.procs p).pid
        ∧ (w'.kernel.procs p).pid < w'.kernel.nextSafe))
      ∧ (w'.kernel.nrProcess ≤ maxProcess →
        ∃ enough, ∀ fuel, enough ≤ fuel →
          ∃ pid s, getPid fuel w'.kernel = some (pid, s)
            ∧ 1 ≤ pid ∧ pid < maxPid
            ∧ ∀ p ∈ L, (w'.kernel.procs p).pid ≠ pid) := by
  obtain ⟨R, init, hinv, -⟩ := hstart.run hrun
  have htables := hinv.tables
  refine ⟨R.procs, htables.list, ?_, ?_⟩
  · intro p hp hin
    exact htables.pids.gap p hp ⟨by omega, hin.2⟩
  · intro hcount
    have hlen : (R.procs.length : Int) < maxPid - 1 := by
      have hnr := htables.nrProcess
      have hmax : maxPid = 8192 := by decide
      have hprocs : maxProcess = 4096 := by decide
      omega
    refine ⟨maxPid.toNat, ?_⟩
    intro fuel hfuel
    obtain ⟨pid, s, hcall⟩ :=
      getPid_returns htables.list htables.pids hlen hfuel
    obtain ⟨hone, hlt, hnew, -⟩ :=
      getPid_spec htables.list htables.pids hcall
    exact ⟨pid, s, hcall, hone, hlt, hnew⟩

/-- After a process with pid 2 has been created and reaped. -/
theorem get_pid_unique_reaped : ∃ enough, ∀ fuel, enough ≤ fuel →
    ∃ pid s, getPid fuel reapedKernel = some (pid, s) ∧ 1 ≤ pid := by
  obtain ⟨L, -, -, hreturns⟩ := get_pid_unique booted_start small_run
  obtain ⟨enough, hcalls⟩ := hreturns (by decide +kernel)
  refine ⟨enough, ?_⟩
  intro fuel hfuel
  obtain ⟨pid, s, hcall, hone, -⟩ := hcalls fuel hfuel
  exact ⟨pid, s, hcall, hone⟩

end Ucore.Process
