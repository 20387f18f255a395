/-
get_pid gives out a pid that no process on proc_list has: no pid in use
lies from `last_pid` up to `next_safe`, and the scan keeps it so for the
part of the list it has seen.
-/
import Ucore.Process.Proc

namespace Ucore.Process

open Ring

variable {ν : Type} {A : Memory ν} {s s' : State A}
  {l n lastPid nextSafe pid : Int} {fuel rounds : Nat} {again : Bool}
  {L pre suf : List ν}

/-- No pid of the list lies from `lo` up to `hi`. -/
def NoPid (s : State A) (L : List ν) (lo hi : Int) : Prop :=
  ∀ p ∈ L, ¬ (lo ≤ (s.procs p).pid ∧ (s.procs p).pid < hi)

/-- `last_pid` and `next_safe` bound a range of free pids. -/
structure PidInv (s : State A) (L : List ν) : Prop where
  nonneg : 0 ≤ s.lastPid
  safe : s.nextSafe ≤ maxPid
  gap : NoPid s L (s.lastPid + 1) s.nextSafe

/-- The cell before a cut is followed by the cell after it. -/
theorem next_cut (hring : IsRing s.links .procList (L.map .listLink))
    (hL : L = pre ++ suf) :
    s.links.next (before .procList (pre.map .listLink))
      = after .procList (suf.map .listLink) := by
  rw [hL, List.map_append] at hring
  exact hring.next_before

theorem before_step (p : ν) :
    before (.procList : Entry ν) ((pre ++ [p]).map .listLink)
      = .listLink p := by
  rw [List.map_append]
  exact before_concat _ _ _

variable [DecidableEq ν]

/-- What a scan that goes to `repeat`, or ends, has found. -/
theorem pidScan_spec
    (hring : IsRing s.links .procList (L.map .listLink))
    (hL : L = pre ++ suf) (hseen : NoPid s pre lastPid nextSafe)
    (hlt : lastPid < nextSafe) (hsafe : nextSafe ≤ maxPid)
    (hone : 1 ≤ lastPid)
    (h : pidScan s fuel (before .procList (pre.map .listLink)) lastPid
      nextSafe = some (l, n, again)) :
    1 ≤ l ∧ l < n ∧ n ≤ maxPid
      ∧ (again = true → n = maxPid) ∧ (again = false → NoPid s L l n) := by
  induction suf generalizing pre lastPid nextSafe fuel with
  | nil =>
      cases fuel with
      | zero => cases h
      | succ fuel =>
          have hnext : listNext s.links _ = _ := next_cut hring hL
          rw [pidScan, hnext] at h
          cases h
          rw [hL, List.append_nil]
          exact ⟨hone, hlt, hsafe, (fun h => by cases h), fun _ => hseen⟩
  | cons p suf ih =>
      cases fuel with
      | zero => cases h
      | succ fuel =>
          have hnext : listNext s.links _ = _ := next_cut hring hL
          have hL' : L = (pre ++ [p]) ++ suf := by
            rw [hL, List.append_assoc]
            rfl
          have hgo : ∀ {a b : Int}, NoPid s pre a b →
              ¬ (a ≤ (s.procs p).pid ∧ (s.procs p).pid < b) →
              NoPid s (pre ++ [p]) a b := by
            intro a b hpre hp q hq
            rcases List.mem_append.1 hq with hq | hq
            · exact hpre q hq
            · rw [List.mem_singleton.1 hq]
              exact hp
          rw [pidScan, hnext] at h
          simp only [List.map_cons, after_cons, le2proc] at h
          rw [if_pos (by rintro ⟨⟩)] at h
          have hstep : before (.procList : Entry ν)
              ((pre ++ [p]).map .listLink) = .listLink p := before_step p
          rw [← hstep] at h
          split at h
          case isTrue heq =>
              split at h
              case isTrue hge =>
                  cases h
                  refine ⟨?_, ?_, le_refl _, fun _ => rfl, fun h => by cases h⟩
                  · split <;> omega
                  · split
                    · decide
                    · omega
              case isFalse hge =>
                  refine ih hL' (hgo (fun q hq hin => ?_) ?_) (by omega) hsafe
                    (by omega) h
                  · exact hseen q hq ⟨by omega, hin.2⟩
                  · omega
          case isFalse hne =>
              split at h
              case isTrue hin =>
                  refine ih hL' (hgo (fun q hq hin' => ?_) ?_) hin.1 (by omega)
                    hone h
                  · exact hseen q hq ⟨hin'.1, by omega⟩
                  · omega
              case isFalse hout =>
                  exact ih hL' (hgo hseen (by omega)) hlt hsafe hone h

/-- `get_pid` from `repeat` on. -/
theorem pidRepeat_spec
    (hring : IsRing s.links .procList (L.map .listLink))
    (hone : 1 ≤ lastPid) (hlt : lastPid < maxPid)
    (h : pidRepeat s fuel rounds lastPid maxPid = some (l, n)) :
    1 ≤ l ∧ l < n ∧ n ≤ maxPid ∧ NoPid s L l n := by
  induction rounds generalizing lastPid with
  | zero => cases h
  | succ rounds ih =>
      rw [pidRepeat] at h
      cases hscan : pidScan s fuel .procList lastPid maxPid with
      | none => rw [hscan] at h; cases h
      | some r =>
          obtain ⟨l', n', again⟩ := r
          have hstart : pidScan s fuel
              (before .procList (([] : List ν).map .listLink)) lastPid maxPid
              = some (l', n', again) := hscan
          have hseen : NoPid s ([] : List ν) lastPid maxPid := fun _ h => by cases h
          have hspec := pidScan_spec hring rfl hseen hlt (le_refl _) hone
            hstart
          obtain ⟨hone', hlt', hsafe', hagain, hdone⟩ := hspec
          rw [hscan] at h
          cases again with
          | true =>
              have hn := hagain rfl
              subst hn
              exact ih hone' hlt' h
          | false =>
              cases h
              exact ⟨hone', hlt', hsafe', hdone rfl⟩

/-- What `get_pid` does. -/
theorem getPid_spec (hring : IsRing s.links .procList (L.map .listLink))
    (hinv : PidInv s L) (h : getPid fuel s = some (pid, s')) :
    1 ≤ pid ∧ pid < maxPid ∧ (∀ p ∈ L, (s.procs p).pid ≠ pid)
      ∧ ∃ n, s' = { s with lastPid := pid, nextSafe := n } ∧ pid < n
        ∧ n ≤ maxPid ∧ NoPid s L pid n := by
  simp only [getPid, Call.bind_eq_some, Call.get_eq_some,
    Call.ofOption_eq_some, Call.modify_eq_some, Call.pure_eq_some] at h
  obtain ⟨s₁, s₂, ⟨rfl, rfl⟩, r, s₃, ⟨hr, rfl⟩, hrest⟩ := h
  obtain ⟨l, n⟩ := r
  obtain ⟨-, s₄, rfl, rfl, rfl⟩ := hrest
  have hspec : 1 ≤ pid ∧ pid < n ∧ n ≤ maxPid ∧ NoPid s₃ L pid n := by
    have hnonneg := hinv.nonneg
    split at hr
    case isTrue => exact pidRepeat_spec hring (by decide) (by decide) hr
    case isFalse hlt =>
        split at hr
        case isTrue => exact pidRepeat_spec hring (by omega) (by omega) hr
        case isFalse hsafe =>
            cases hr
            exact ⟨by omega, by omega, hinv.safe, hinv.gap⟩
  obtain ⟨hone, hlt, hsafe, hno⟩ := hspec
  refine ⟨hone, by omega, fun p hp heq => ?_, n, rfl, hlt, hsafe, hno⟩
  exact hno p hp ⟨by omega, by omega⟩

end Ucore.Process
