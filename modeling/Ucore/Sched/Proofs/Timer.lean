/-
Timers fire on time.

The list keeps, for each timer, how much later than the one before it is due
(`Sums`): what is due at the same call has the difference 0. `add_timer` splits
the difference at the place it finds, `del_timer` adds the two that meet, and
`run_timer_list` takes one off the first; so the sums, the calls at which the
timers are due, stay what they are. They are read off the calls alone
(`due`).
-/
import Ucore.Sched.Timer
import Mathlib.Data.List.Induction
import Mathlib.Data.List.Nodup

namespace Ucore.Timer

open Ring

variable {s s' : State} {t n c r fuel : Nat} {ts pre suf mid rest : List Nat}
  {expires expires' : Nat → Nat} {d d' : Nat → Option Nat} {l : Label}
  {ls before : List Label} {ps : Procs} {fired : List Nat}

theorem update_mem {α : Type} {f : Nat → α} {x : α} (h : t ∉ ts)
    (hn : n ∈ ts) : Function.update f t x n = f n := by
  have hne : n ≠ t := by
    intro heq
    rw [heq] at hn
    exact h hn
  exact Function.update_of_ne hne x f

-- =================================================== the differences

/-- From the call `c` on, the differences of the timers `ts` add up to the calls
at which they are due. -/
def Sums (expires : Nat → Nat) (due : Nat → Option Nat) : Nat → List Nat → Prop
  | _, [] => True
  | c, t :: ts => due t = some (c + expires t)
      ∧ Sums expires due (c + expires t) ts

theorem Sums.congr (h : Sums expires d c ts)
    (he : ∀ t ∈ ts, expires' t = expires t) (hd : ∀ t ∈ ts, d' t = d t) :
    Sums expires' d' c ts := by
  induction ts generalizing c with
  | nil => trivial
  | cons t ts ih =>
      obtain ⟨ht, hts⟩ := h
      have heq := he t List.mem_cons_self
      refine ⟨?_, ?_⟩
      · rw [hd t List.mem_cons_self, heq]
        exact ht
      · rw [heq]
        exact ih hts (fun q hq => he q (List.mem_cons_of_mem t hq))
          (fun q hq => hd q (List.mem_cons_of_mem t hq))

/-- No timer is due before the first difference is over. -/
theorem Sums.le (h : Sums expires d c (t :: ts)) (hn : n ∈ t :: ts) :
    ∃ k, d n = some k ∧ c + expires t ≤ k := by
  induction ts generalizing c t with
  | nil =>
      rw [List.mem_singleton.1 hn]
      exact ⟨_, h.1, Nat.le_refl _⟩
  | cons t' ts ih =>
      rcases List.mem_cons.1 hn with rfl | hn
      · exact ⟨_, h.1, Nat.le_refl _⟩
      · obtain ⟨k, hk, hle⟩ := ih h.2 hn
        exact ⟨k, hk, by omega⟩

/-- The differences after the first timers go on from a later call. -/
theorem Sums.tail (h : Sums expires d c (pre ++ suf)) :
    ∃ c', c ≤ c' ∧ Sums expires d c' suf := by
  induction pre generalizing c with
  | nil => exact ⟨c, Nat.le_refl c, h⟩
  | cons q pre ih =>
      obtain ⟨c', hle, hsums⟩ := ih h.2
      exact ⟨c', by omega, hsums⟩

/-- Taking a timer out: its difference goes to the one after it. -/
theorem Sums.remove (h : Sums expires d c (pre ++ t :: suf))
    (hpre : ∀ q ∈ pre, expires' q = expires q)
    (hsuf : ∀ n rest, suf = n :: rest →
      expires' n = expires n + expires t ∧ ∀ q ∈ rest, expires' q = expires q) :
    Sums expires' d c (pre ++ suf) := by
  induction pre generalizing c with
  | nil =>
      cases suf with
      | nil => trivial
      | cons n rest =>
          obtain ⟨-, hn, hrest⟩ := h
          obtain ⟨hen, her⟩ := hsuf n rest rfl
          have heq : c + expires' n = c + expires t + expires n := by omega
          refine ⟨?_, ?_⟩
          · rw [heq]
            exact hn
          · rw [heq]
            exact hrest.congr her (fun _ _ => rfl)
  | cons q pre ih =>
      obtain ⟨hq, hrest⟩ := h
      have heq := hpre q List.mem_cons_self
      refine ⟨?_, ?_⟩
      · rw [heq]
        exact hq
      · rw [heq]
        exact ih hrest fun x hx => hpre x (List.mem_cons_of_mem q hx)

-- ========================================================== the list

/-- The links of timers. -/
def links (ts : List Nat) : List Entry := ts.map .timerLink

@[simp] theorem links_nil : links [] = [] := rfl

@[simp] theorem links_cons : links (t :: ts) = .timerLink t :: links ts := rfl

@[simp] theorem links_append : links (pre ++ suf) = links pre ++ links suf :=
  List.map_append

theorem mem_links : .timerLink t ∈ links ts ↔ t ∈ ts := by
  simp [links]

/-- The timers `ts` are on the list, and the differences say when they are due
from the call `c` on. -/
structure Linked (c : Nat) (d : Nat → Option Nat) (s : State)
    (ts : List Nat) : Prop where
  ring : IsRing s.links .timerList (links ts)
  free : ∀ t, t ∉ ts → IsRing s.links (.timerLink t) []
  sums : Sums s.expires d c ts
  proc : ∀ t ∈ ts, s.proc t ≠ none
  word : ∀ t, s.expires t < 2 ^ 32

namespace Linked

theorem nodup (h : Linked c d s ts) : ts.Nodup :=
  List.Nodup.of_map _ (List.nodup_cons.1 h.ring.nodup).2

/-- What comes after a timer on the list. -/
theorem next (h : Linked c d s (pre ++ t :: suf)) :
    listNext s.links (.timerLink t) = after .timerList (links suf) := by
  have hring := h.ring
  have hcut : links (pre ++ t :: suf)
      = (links pre ++ [.timerLink t]) ++ links suf := by simp
  rw [hcut] at hring
  have hnext := hring.next_before
  rw [before_concat] at hnext
  exact hnext

/-- A timer on the list is linked. -/
theorem linked (h : Linked c d s ts) (ht : t ∈ ts) :
    ¬ listEmpty s.links (.timerLink t) = true := by
  obtain ⟨pre, suf, rfl⟩ := List.append_of_mem ht
  have hnext := h.next
  rw [listEmpty, beq_iff_eq, hnext]
  intro heq
  cases suf with
  | nil => cases heq
  | cons n suf =>
      have hnt : n = t := Entry.timerLink.inj heq
      have hnd := h.nodup
      rw [hnt] at hnd
      exact (List.nodup_cons.1 (List.nodup_append.1 hnd).2.1).1
        List.mem_cons_self

theorem empty_iff (h : Linked c d s ts) :
    listEmpty s.links (.timerLink t) = true ↔ t ∉ ts := by
  constructor
  · intro hempty ht
    exact h.linked ht hempty
  · intro ht
    exact (listEmpty_ring (h.free t ht)).2 rfl

/-- The list and an unlinked timer have no entry in common. -/
theorem apart (h : t ∉ ts) :
    ∀ e ∈ Entry.timerList :: links ts, e ∉ [Entry.timerLink t] := by
  intro e he heq
  rw [List.mem_singleton.1 heq] at he
  rcases List.mem_cons.1 he with he | he
  · cases he
  · exact h (mem_links.1 he)

end Linked

-- ========================================================= add_timer

/-- The loop of `add_timer` finds the place at which the differences before the
timer add up to less than its time, and splits the next difference there. -/
theorem addLoop_spec (suf : List Nat) :
    ∀ {pre : List Nat} {c fuel : Nat} {s : State},
      IsRing s.links .timerList (links (pre ++ suf)) → t ∉ suf →
      suf.Nodup → Sums s.expires d c suf → suf.length < fuel →
      ∃ mid rest s', suf = mid ++ rest
        ∧ addLoop t fuel (after .timerList (links suf)) s
            = .ok (after .timerList (links rest), s')
        ∧ s'.links = s.links ∧ s'.proc = s.proc
        ∧ (∀ q, q ≠ t → q ∉ suf → s'.expires q = s.expires q)
        ∧ (∀ q, s'.expires q ≤ s.expires q)
        ∧ Sums s'.expires (Function.update d t (some (c + s.expires t))) c
            (mid ++ t :: rest) := by
  induction suf with
  | nil =>
      intro pre c fuel s hring ht hnd hsums hfuel
      obtain ⟨f, rfl⟩ := Nat.exists_eq_add_of_lt hfuel
      refine ⟨[], [], s, rfl, ?_, rfl, rfl, fun _ _ _ => rfl,
        fun _ => Nat.le_refl _, ?_, trivial⟩
      · show addLoop t (0 + f + 1) .timerList s = _
        rw [addLoop, if_pos rfl]
        rfl
      · exact Function.update_self t _ d
  | cons n suf ih =>
      intro pre c fuel s hring ht hnd hsums hfuel
      obtain ⟨fuel, rfl⟩ : ∃ f, fuel = f + 1 := ⟨fuel - 1, by omega⟩
      obtain ⟨hn, hsuf⟩ := hsums
      have hnt : n ≠ t := fun heq => ht (heq ▸ List.mem_cons_self)
      have htsuf : t ∉ suf := fun hm => ht (List.mem_cons_of_mem n hm)
      obtain ⟨hnsuf, hndsuf⟩ := List.nodup_cons.1 hnd
      have hkeep : ∀ {k : Option Nat}, ∀ q ∈ suf,
          Function.update d t k q = d q := fun q hq => update_mem htsuf hq
      by_cases hlt : s.expires t < s.expires n
      · let s₁ : State := { s with
          expires := Function.update s.expires n (s.expires n - s.expires t) }
        have hstop : addLoop t (fuel + 1) (.timerLink n) s
            = .ok (.timerLink n, s₁) := by
          rw [addLoop, if_neg (fun heq => Entry.noConfusion heq)]
          exact if_pos hlt
        refine ⟨[], n :: suf, s₁, rfl, hstop, rfl, rfl, ?_, ?_, ?_, ?_, ?_⟩
        · intro q _ hq
          have hqn : q ≠ n := by
            intro heq
            rw [heq] at hq
            exact hq List.mem_cons_self
          exact Function.update_of_ne hqn _ _
        · intro q
          by_cases hqn : q = n
          · rw [hqn]
            show Function.update s.expires n _ n ≤ _
            rw [Function.update_self]
            omega
          · exact Nat.le_of_eq (Function.update_of_ne hqn _ _)
        · show Function.update d t _ t
            = some (c + Function.update s.expires n _ t)
          rw [Function.update_self, Function.update_of_ne hnt.symm]
        · show Function.update d t _ n
            = some (c + Function.update s.expires n _ t
              + Function.update s.expires n _ n)
          rw [Function.update_of_ne hnt, Function.update_of_ne hnt.symm,
            Function.update_self, hn]
          congr 1
          omega
        · show Sums _ _ (c + Function.update s.expires n _ t
              + Function.update s.expires n _ n) suf
          rw [Function.update_of_ne hnt.symm, Function.update_self]
          have heq : c + s.expires t + (s.expires n - s.expires t)
              = c + s.expires n := by omega
          rw [heq]
          exact hsuf.congr (fun q hq => update_mem hnsuf hq) hkeep
      · have hring' : IsRing s.links .timerList (links ((pre ++ [n]) ++ suf)) := by
          rw [List.append_assoc]
          exact hring
        have hnext : listNext s.links (.timerLink n)
            = after .timerList (links suf) := by
          have hcut := hring'
          rw [links_append] at hcut
          have hnext := hcut.next_before
          rw [links_append, links_cons, links_nil, before_concat] at hnext
          exact hnext
        let s₁ : State := { s with
          expires := Function.update s.expires t (s.expires t - s.expires n) }
        have hsuf₁ : Sums s₁.expires d (c + s.expires n) suf :=
          hsuf.congr (fun q hq => update_mem htsuf hq) (fun _ _ => rfl)
        have hring₁ : IsRing s₁.links .timerList (links ((pre ++ [n]) ++ suf)) :=
          hring'
        obtain ⟨mid, rest, s', hcut, hloop, hlinks, hproc, hother, hle, hsums⟩ :=
          ih hring₁ htsuf hndsuf hsuf₁ (Nat.lt_of_succ_lt_succ hfuel)
        have hgo : addLoop t (fuel + 1) (.timerLink n) s
            = addLoop t fuel (after .timerList (links suf)) s₁ := by
          rw [addLoop, if_neg (fun heq => Entry.noConfusion heq), ← hnext]
          exact if_neg hlt
        have het : s₁.expires t = s.expires t - s.expires n :=
          Function.update_self t _ _
        have hen : s'.expires n = s.expires n := by
          rw [hother n hnt hnsuf]
          exact Function.update_of_ne hnt _ _
        refine ⟨n :: mid, rest, s', by rw [hcut]; rfl, hgo.trans hloop, hlinks, hproc,
          ?_, ?_, ?_, ?_⟩
        · intro q hqt hq
          rw [hother q hqt (fun hm => hq (List.mem_cons_of_mem n hm))]
          exact Function.update_of_ne hqt _ _
        · intro q
          refine Nat.le_trans (hle q) ?_
          by_cases hqt : q = t
          · rw [hqt, het]
            omega
          · exact Nat.le_of_eq (Function.update_of_ne hqt _ _)
        · rw [Function.update_of_ne hnt, hen]
          exact hn
        · rw [hen]
          have heq : c + s.expires n + s₁.expires t = c + s.expires t := by
            omega
          rw [heq] at hsums
          exact hsums

/-- A timer that is not on the list is added for the call `expires` calls
later. -/
theorem addTimer_linked (h : Linked c d s ts) (ht : t ∉ ts)
    (hcall : addTimer fuel t s = .ok s') (hfuel : ts.length < fuel) :
    0 < s.expires t ∧ ∃ mid rest, ts = mid ++ rest
      ∧ Linked c (Function.update d t (some (c + s.expires t))) s'
          (mid ++ t :: rest) := by
  rw [addTimer] at hcall
  split at hcall
  case isFalse => cases hcall
  case isTrue hguard =>
      obtain ⟨hpos, hproc, -⟩ := hguard
      have hhead : listNext s.links .timerList = after .timerList (links ts) :=
        IsRing.next_before (show IsRing s.links .timerList ([] ++ links ts)
          from h.ring)
      obtain ⟨mid, rest, s₁, rfl, hloop, hlinks, hproc₁, -, hle, hsums⟩ :=
        addLoop_spec ts (show IsRing s.links .timerList (links ([] ++ ts))
          from h.ring) ht h.nodup h.sums hfuel
      rw [hhead, hloop] at hcall
      cases hcall
      have hring : IsRing s₁.links .timerList (links mid ++ links rest) := by
        rw [hlinks, ← links_append]
        exact h.ring
      have hout : Entry.timerLink t
          ∉ Entry.timerList :: (links mid ++ links rest) := by
        rw [← links_append]
        intro hm
        rcases List.mem_cons.1 hm with hm | hm
        · cases hm
        · exact ht (mem_links.1 hm)
      refine ⟨hpos, mid, rest, rfl, ?_, ?_, hsums, ?_, ?_⟩
      · show IsRing (listAddBefore s₁.links _ _) _ (links (mid ++ t :: rest))
        rw [links_append, links_cons]
        exact listAddBefore_ring hring hout
      · intro q hq
        have hqts : q ∉ mid ++ rest := by
          intro hm
          rcases List.mem_append.1 hm with hm | hm
          · exact hq (List.mem_append_left _ hm)
          · exact hq (List.mem_append_right _ (List.mem_cons_of_mem t hm))
        have hqt : Entry.timerLink t ∉ [Entry.timerLink q] := by
          intro hm
          have heq := Entry.timerLink.inj (List.mem_singleton.1 hm)
          rw [heq] at hq
          exact hq (List.mem_append_right _ List.mem_cons_self)
        refine listAddBefore_ring_frame hring ?_ hqt ?_
        · rw [hlinks]
          exact h.free q hqts
        · rw [← links_append]
          exact Linked.apart hqts
      · intro q hq
        show s₁.proc q ≠ none
        rw [hproc₁]
        by_cases hqt : q = t
        · rw [hqt]
          exact hproc
        · refine h.proc q ?_
          rcases List.mem_append.1 hq with hq | hq
          · exact List.mem_append_left rest hq
          · rcases List.mem_cons.1 hq with hq | hq
            · exact absurd hq hqt
            · exact List.mem_append_right mid hq
      · intro q
        exact Nat.lt_of_le_of_lt (hle q) (h.word q)

/-- Given time for the whole list, `add_timer` takes every timer it does not
assert against. -/
theorem addTimer_ok (h : Linked c d s ts) (ht : t ∉ ts)
    (hpos : 0 < s.expires t) (hproc : s.proc t ≠ none)
    (hfuel : ts.length < fuel) : ∃ s', addTimer fuel t s = .ok s' := by
  have hhead : listNext s.links .timerList = after .timerList (links ts) :=
    IsRing.next_before (show IsRing s.links .timerList ([] ++ links ts)
      from h.ring)
  obtain ⟨mid, rest, s₁, -, hloop, -⟩ :=
    addLoop_spec ts (show IsRing s.links .timerList (links ([] ++ ts))
      from h.ring) ht h.nodup h.sums hfuel
  let m := listAddBefore s₁.links (after .timerList (links rest))
    (.timerLink t)
  refine ⟨{ s₁ with links := m }, ?_⟩
  rw [addTimer, if_pos ⟨hpos, hproc, h.empty_iff.2 ht⟩, hhead, hloop]

-- ========================================================= del_timer

/-- A timer that is not on the list is left alone. -/
theorem delTimer_free (h : Linked c d s ts) (ht : t ∉ ts) :
    delTimer t s = s := by
  rw [delTimer]
  exact if_pos (h.empty_iff.2 ht)

/-- A timer on the list is taken off, and the others stay due when they are. -/
theorem delTimer_linked (h : Linked c d s (pre ++ t :: suf))
    (hfit : ∀ n rest, suf = n :: rest →
      s.expires n + s.expires t < 2 ^ 32) :
    Linked c d (delTimer t s) (pre ++ suf) := by
  have hnd := h.nodup
  have htsuf : t ∉ suf := (List.nodup_cons.1 (List.nodup_append.1 hnd).2.1).1
  have htpre : t ∉ pre := fun hm =>
    (List.nodup_append.1 hnd).2.2 t hm t List.mem_cons_self rfl
  -- what `del_timer` does to the differences
  obtain ⟨x, hdel, hpre, hsuf, hword⟩ : ∃ x,
      delTimer t s = { links := listDelInit s.links (.timerLink t)
                       expires := x, proc := s.proc }
      ∧ (∀ q ∈ pre, x q = s.expires q)
      ∧ (∀ n rest, suf = n :: rest → x n = s.expires n + s.expires t
          ∧ ∀ q ∈ rest, x q = s.expires q)
      ∧ ∀ q, x q < 2 ^ 32 := by
    have hlinked := h.linked (List.mem_append_right pre List.mem_cons_self)
    rw [delTimer, if_neg hlinked, h.next]
    by_cases hzero : s.expires t = 0
    · refine ⟨s.expires, ?_, fun _ _ => rfl, ?_, h.word⟩
      · rw [if_neg (fun hne => hne hzero)]
      · intro n rest hcut
        exact ⟨by rw [hzero, Nat.add_zero], fun _ _ => rfl⟩
    · cases suf with
      | nil =>
          refine ⟨s.expires, ?_, fun _ _ => rfl, ?_, h.word⟩
          · rw [if_pos hzero]
            rfl
          · intro n rest hcut
            cases hcut
      | cons n rest =>
          have hlt := hfit n rest rfl
          refine ⟨Function.update s.expires n
            ((s.expires n + s.expires t) % 2 ^ 32), ?_, ?_, ?_, ?_⟩
          · rw [if_pos hzero]
            rfl
          · intro q hq
            refine update_mem (fun hn => ?_) hq
            exact (List.nodup_append.1 hnd).2.2 n hn n
              (List.mem_cons_of_mem t List.mem_cons_self) rfl
          · intro n' rest' hcut
            cases hcut
            refine ⟨?_, ?_⟩
            · rw [Function.update_self, Nat.mod_eq_of_lt hlt]
            · intro q hq
              have hnd' := (List.nodup_append.1 hnd).2.1
              exact update_mem
                (List.nodup_cons.1 (List.nodup_cons.1 hnd').2).1 hq
          · intro q
            by_cases hqn : q = n
            · rw [hqn, Function.update_self]
              exact Nat.mod_lt _ (by decide)
            · rw [Function.update_of_ne hqn]
              exact h.word q
  have hring : IsRing s.links .timerList
      (links pre ++ .timerLink t :: links suf) := by
    rw [← links_cons, ← links_append]
    exact h.ring
  rw [hdel]
  refine ⟨?_, ?_, h.sums.remove hpre hsuf, ?_, hword⟩
  · show IsRing (listDelInit s.links _) _ (links (pre ++ suf))
    rw [links_append]
    exact listDelInit_ring hring
  · intro q hq
    by_cases hqt : q = t
    · rw [hqt]
      exact listInit_ring _ _
    · have hqts : q ∉ pre ++ t :: suf := by
        intro hm
        rcases List.mem_append.1 hm with hm | hm
        · exact hq (List.mem_append_left suf hm)
        · rcases List.mem_cons.1 hm with hm | hm
          · exact hqt hm
          · exact hq (List.mem_append_right pre hm)
      refine listDelInit_ring_frame hring (h.free q hqts) ?_
      rw [← links_cons, ← links_append]
      exact Linked.apart hqts
  · intro q hq
    refine h.proc q ?_
    rcases List.mem_append.1 hq with hq | hq
    · exact List.mem_append_left _ hq
    · exact List.mem_append_right pre (List.mem_cons_of_mem t hq)

-- ==================================================== run_timer_list

/-- What the loop of `run_timer_list` leaves: the timers due now are gone, in
the order of the list, and the others are due later. -/
structure Fires (c : Nat) (d : Nat → Option Nat) (ts : List Nat)
    (gone : List Nat) (s : State) (rest : List Nat) : Prop where
  cut : ts = gone ++ rest
  now : ∀ t ∈ gone, d t = some c
  later : ∀ t ∈ rest, ∃ k, d t = some k ∧ c < k
  linked : Linked c d s rest

theorem wakeupProc_error {p : Nat} {e : Failure}
    (h : wakeupProc p ps = .error e) : e = .zombie := by
  rw [wakeupProc] at h
  split at h
  · cases h
    rfl
  · split at h
    · cases h
    · cases h

/-- One round of the loop at a timer whose difference is 0. -/
theorem runLoop_fire (h : Linked c d s (t :: ts)) (hzero : s.expires t = 0)
    (fuel : Nat) (ps : Procs) (fired : List Nat) :
    Linked c d (delTimer t s) ts ∧
      (runLoop (fuel + 1) t s ps fired = .error .waitState
        ∨ runLoop (fuel + 1) t s ps fired = .error .zombie
        ∨ ∃ ps', runLoop (fuel + 1) t s ps fired
            = if after .timerList (links ts) = .timerList then
                .ok (fired ++ [t], delTimer t s)
              else runLoop fuel (le2timer (after .timerList (links ts)))
                (delTimer t s) ps' (fired ++ [t])) := by
  have hcut : Linked c d s ([] ++ t :: ts) := h
  have hdel : Linked c d (delTimer t s) ([] ++ ts) := by
    refine delTimer_linked hcut (fun n rest _ => ?_)
    rw [hzero, Nat.add_zero]
    exact h.word n
  have hnext := hcut.next
  refine ⟨hdel, ?_⟩
  obtain ⟨p, hp⟩ := Option.ne_none_iff_exists'.1
    (h.proc t List.mem_cons_self)
  rw [runLoop, if_pos hzero]
  simp only [hp, hnext]
  split
  · exact .inl rfl
  · cases hwake : wakeupProc p ps with
    | error e =>
        rw [wakeupProc_error hwake]
        exact .inr (.inl rfl)
    | ok ps' => exact .inr (.inr ⟨ps', rfl⟩)

/-- The loop stops at a timer whose difference is not 0. -/
theorem runLoop_later (h : Linked c d s (t :: ts)) (hne : s.expires t ≠ 0)
    (fuel : Nat) (ps : Procs) (fired : List Nat) :
    runLoop (fuel + 1) t s ps fired = .ok (fired, s)
      ∧ Fires c d (t :: ts) [] s (t :: ts) := by
  refine ⟨?_, rfl, fun _ hm => absurd hm List.not_mem_nil, ?_, h⟩
  · rw [runLoop, if_neg hne]
  · intro q hq
    obtain ⟨k, hk, hle⟩ := h.sums.le hq
    exact ⟨k, hk, by omega⟩

/-- The loop fires just the timers that are due, and fails only at what it
asserts about the processes. -/
theorem runLoop_spec (ts : List Nat) :
    ∀ {t fuel : Nat} {s : State} (ps : Procs) (fired : List Nat),
      Linked c d s (t :: ts) → ts.length < fuel →
      runLoop fuel t s ps fired = .error .waitState
      ∨ runLoop fuel t s ps fired = .error .zombie
      ∨ ∃ gone s' rest, runLoop fuel t s ps fired = .ok (fired ++ gone, s')
        ∧ Fires c d (t :: ts) gone s' rest := by
  induction ts with
  | nil =>
      intro t fuel s ps fired h hfuel
      obtain ⟨fuel, rfl⟩ : ∃ f, fuel = f + 1 := ⟨fuel - 1, by omega⟩
      by_cases hzero : s.expires t = 0
      · obtain ⟨hdel, herr | herr | ⟨ps', hrun⟩⟩ :=
          runLoop_fire h hzero fuel ps fired
        · exact .inl herr
        · exact .inr (.inl herr)
        · refine .inr (.inr ⟨[t], delTimer t s, [], hrun, rfl, ?_, ?_, hdel⟩)
          · intro q hq
            rw [List.mem_singleton.1 hq, h.sums.1, hzero]
            rfl
          · intro q hq
            cases hq
      · obtain ⟨hrun, hfires⟩ :=
          runLoop_later h hzero fuel ps fired
        exact .inr (.inr ⟨[], s, [t], by rw [hrun, List.append_nil], hfires⟩)
  | cons n ts ih =>
      intro t fuel s ps fired h hfuel
      obtain ⟨fuel, rfl⟩ : ∃ f, fuel = f + 1 := ⟨fuel - 1, by omega⟩
      by_cases hzero : s.expires t = 0
      · obtain ⟨hdel, herr | herr | ⟨ps', hrun⟩⟩ :=
          runLoop_fire h hzero fuel ps fired
        · exact .inl herr
        · exact .inr (.inl herr)
        · rw [hrun]
          show runLoop fuel n (delTimer t s) ps' (fired ++ [t]) = _ ∨ _
          obtain herr | herr | ⟨gone, s', rest, hrun', hcut, hnow, hlater, hl⟩ :=
            ih ps' (fired ++ [t]) hdel (Nat.lt_of_succ_lt_succ hfuel)
          · exact .inl herr
          · exact .inr (.inl herr)
          · refine .inr (.inr ⟨t :: gone, s', rest, ?_, ?_, ?_, hlater, hl⟩)
            · show runLoop fuel n _ ps' _ = _
              rw [hrun', List.append_assoc]
              rfl
            · rw [hcut]
              rfl
            · intro q hq
              rcases List.mem_cons.1 hq with hq | hq
              · rw [hq, h.sums.1, hzero]
                rfl
              · exact hnow q hq
      · obtain ⟨hrun, hfires⟩ :=
          runLoop_later h hzero fuel ps fired
        exact .inr (.inr ⟨[], s, t :: n :: ts,
          by rw [hrun, List.append_nil], hfires⟩)

theorem runLoop_head {fuel t : Nat} {s : State} {ps : Procs} :
    runLoop fuel t s ps fired ≠ .error .headExpires := by
  induction fuel generalizing t s ps fired with
  | zero =>
      intro h
      cases h
  | succ fuel ih =>
      intro h
      rw [runLoop] at h
      split at h
      case isFalse => cases h
      case isTrue =>
          cases hp : s.proc t with
          | none =>
              simp only [hp] at h
              cases h
          | some p =>
              simp only [hp] at h
              split at h
              · cases h
              · cases hwake : wakeupProc p ps with
                | error e =>
                    rw [wakeupProc_error hwake] at hwake
                    simp only [hwake] at h
                    cases h
                | ok ps' =>
                    simp only [hwake] at h
                    split at h
                    · cases h
                    · exact ih h

/-- The first timer on the list is not found at 0: the loop runs. -/
theorem runTimerList_cons (h : Linked c d s (t :: ts))
    (hlater : ∀ n ∈ t :: ts, ∀ k, d n = some k → c < k) (fuel : Nat)
    (ps : Procs) :
    0 < s.expires t ∧ runTimerList fuel ps s
      = runLoop fuel t { s with
          expires := Function.update s.expires t (s.expires t - 1) } ps [] := by
  have hhead : listNext s.links .timerList = .timerLink t :=
    IsRing.next_before (show IsRing s.links .timerList
      ([] ++ links (t :: ts)) from h.ring)
  have hlt := hlater t List.mem_cons_self _ h.sums.1
  have hpos : s.expires t ≠ 0 := by omega
  refine ⟨by omega, ?_⟩
  rw [runTimerList, hhead]
  exact if_neg hpos

theorem runTimerList_nil (h : Linked c d s []) (fuel : Nat) (ps : Procs) :
    runTimerList fuel ps s = .ok ([], s) := by
  have hhead : listNext s.links .timerList = .timerList :=
    IsRing.next_before (show IsRing s.links .timerList ([] ++ []) from h.ring)
  rw [runTimerList, hhead]
  exact if_pos rfl

theorem runTimerList_head (h : Linked c d s ts)
    (hlater : ∀ t ∈ ts, ∀ k, d t = some k → c < k) (fuel : Nat) (ps : Procs) :
    runTimerList fuel ps s ≠ .error .headExpires := by
  intro herr
  cases ts with
  | nil =>
      rw [runTimerList_nil h] at herr
      cases herr
  | cons t ts =>
      rw [(runTimerList_cons h hlater fuel ps).2] at herr
      exact runLoop_head herr

/-- `run_timer_list` fires the timers due at the next call, given that the ones
on the list are all due after the calls so far. -/
theorem runTimerList_spec (h : Linked c d s ts)
    (hlater : ∀ t ∈ ts, ∀ k, d t = some k → c < k)
    (hfuel : ts.length < fuel) (ps : Procs) :
    runTimerList fuel ps s = .error .waitState
      ∨ runTimerList fuel ps s = .error .zombie
      ∨ ∃ gone s' rest, runTimerList fuel ps s = .ok (gone, s')
        ∧ Fires (c + 1) d ts gone s' rest := by
  cases ts with
  | nil =>
      have hsums : Sums s.expires d (c + 1) [] := trivial
      refine .inr (.inr ⟨[], s, [], runTimerList_nil h fuel ps, rfl, ?_, ?_,
        h.ring, h.free, hsums, h.proc, h.word⟩)
      · intro q hq
        cases hq
      · intro q hq
        cases hq
  | cons t ts =>
      obtain ⟨hpos, hrun⟩ := runTimerList_cons h hlater fuel ps
      obtain ⟨ht, hts⟩ := h.sums
      have hnd := List.nodup_cons.1 h.nodup
      have hlinked : Linked (c + 1) d { s with
          expires := Function.update s.expires t (s.expires t - 1) }
          (t :: ts) := by
        have het : c + 1 + Function.update s.expires t (s.expires t - 1) t
            = c + s.expires t := by
          rw [Function.update_self]
          omega
        refine ⟨h.ring, h.free, ⟨?_, ?_⟩, h.proc, ?_⟩
        · rw [het]
          exact ht
        · rw [het]
          exact hts.congr (fun q hq => update_mem hnd.1 hq) (fun _ _ => rfl)
        · intro q
          have hq := h.word q
          show Function.update s.expires t _ q < _
          by_cases hqt : q = t
          · rw [hqt] at hq ⊢
            rw [Function.update_self]
            omega
          · rw [Function.update_of_ne hqt]
            exact hq
      rw [hrun]
      exact runLoop_spec ts ps [] hlinked
        (Nat.lt_trans (Nat.lt_succ_self _) hfuel)

-- ========================================================== the time

/-- A call that returns does so given more time. -/
theorem addLoop_more {r : Entry × State} (n : Nat) :
    ∀ {fuel : Nat} {le : Entry} {s : State},
      addLoop t fuel le s = .ok r → addLoop t (fuel + n) le s = .ok r := by
  intro fuel
  induction fuel with
  | zero =>
      intro le s h
      cases h
  | succ fuel ih =>
      intro le s h
      rw [Nat.succ_add, addLoop]
      rw [addLoop] at h
      split
      case isTrue hle =>
          rw [if_pos hle] at h
          exact h
      case isFalse hle =>
          rw [if_neg hle] at h
          by_cases hlt : s.expires t < s.expires (le2timer le)
          · exact (if_pos hlt).trans ((if_pos hlt).symm.trans h)
          · exact (if_neg hlt).trans (ih ((if_neg hlt).symm.trans h))

theorem addTimer_more (n : Nat) (h : addTimer fuel t s = .ok s') :
    addTimer (fuel + n) t s = .ok s' := by
  rw [addTimer] at h ⊢
  split
  case isFalse hguard =>
      rw [if_neg hguard] at h
      exact h
  case isTrue hguard =>
      rw [if_pos hguard] at h
      cases hloop : addLoop t fuel (listNext s.links .timerList) s with
      | error e =>
          rw [hloop] at h
          cases h
      | ok r =>
          rw [addLoop_more n hloop]
          rw [hloop] at h
          exact h

theorem runLoop_more {r : List Nat × State} (n : Nat) :
    ∀ {fuel t : Nat} {s : State} {ps : Procs} {fired : List Nat},
      runLoop fuel t s ps fired = .ok r →
      runLoop (fuel + n) t s ps fired = .ok r := by
  intro fuel
  induction fuel with
  | zero =>
      intro t s ps fired h
      cases h
  | succ fuel ih =>
      intro t s ps fired h
      rw [Nat.succ_add, runLoop]
      rw [runLoop] at h
      by_cases hzero : s.expires t = 0
      · rw [if_pos hzero] at h ⊢
        cases hp : s.proc t with
        | none =>
            simp only [hp] at h
            cases h
        | some p =>
            simp only [hp] at h ⊢
            split at h
            · cases h
            · rename_i hw
              rw [if_neg hw]
              cases hwake : wakeupProc p ps with
              | error e =>
                  simp only [hwake] at h
                  cases h
              | ok ps' =>
                  simp only [hwake] at h ⊢
                  split at h
                  case isTrue hle =>
                      rw [if_pos hle]
                      exact h
                  case isFalse hle =>
                      rw [if_neg hle]
                      exact ih h
      · rw [if_neg hzero] at h ⊢
        exact h

theorem runTimerList_more {r : List Nat × State} (n : Nat)
    (h : runTimerList fuel ps s = .ok r) :
    runTimerList (fuel + n) ps s = .ok r := by
  rw [runTimerList] at h ⊢
  by_cases hle : listNext s.links .timerList = .timerList
  · exact (if_pos hle).trans ((if_pos hle).symm.trans h)
  · have hrest := (if_neg hle).symm.trans h
    refine (if_neg hle).trans ?_
    by_cases hzero : s.expires (le2timer (listNext s.links .timerList)) = 0
    · have herr := (if_pos hzero).symm.trans hrest
      cases herr
    · refine (if_neg hzero).trans ?_
      exact runLoop_more n ((if_neg hzero).symm.trans hrest)

-- ====================================================== the calendar

/-- What the list stands for: at which call each timer is due. -/
structure Calendar where
  clock : Nat
  due : Nat → Option Nat

/-- What a call does to the calendar. -/
def Calendar.step (k : Calendar) : Label → Calendar
  | .init _ => k
  | .add t e =>
      { k with due := Function.update k.due t (some (k.clock + e)) }
  | .del t => { k with due := Function.update k.due t none }
  | .tick _ =>
      { clock := k.clock + 1
        due := fun t =>
          if k.due t = some (k.clock + 1) then none else k.due t }

/-- The calendar after the calls `ls`. -/
def calendar (ls : List Label) : Calendar :=
  ls.foldl Calendar.step { clock := 0, due := fun _ => none }

theorem calendar_concat : calendar (ls ++ [l]) = (calendar ls).step l :=
  List.foldl_append

theorem ticks_append {ls' : List Label} :
    ticks (ls ++ ls') = ticks ls + ticks ls' := by
  induction ls with
  | nil => exact (Nat.zero_add _).symm
  | cons l ls ih =>
      cases l with
      | tick fired =>
          show ticks (ls ++ ls') + 1 = ticks ls + 1 + ticks ls'
          omega
      | init t => exact ih
      | add t e => exact ih
      | del t => exact ih

theorem calendar_clock : (calendar ls).clock = ticks ls := by
  induction ls using List.reverseRecOn with
  | nil => rfl
  | append_singleton ls l ih =>
      rw [calendar_concat, ticks_append, ← ih]
      cases l with
      | tick fired => rfl
      | init t => rfl
      | add t e => rfl
      | del t => rfl

/-- The timer was last added for the call `k`, and not deleted since. -/
def AddedFor (ls : List Label) (t k : Nat) : Prop :=
  ∃ first e since, ls = first ++ .add t e :: since
    ∧ (∀ l ∈ since, ¬ Touches t l) ∧ ticks first + e = k

theorem addedFor_nil : ¬ AddedFor [] t n := by
  intro h
  obtain ⟨first, e, since, heq, -⟩ := h
  exact List.append_ne_nil_of_right_ne_nil first (List.cons_ne_nil _ since)
    heq.symm

/-- Only a call that touches the timer matters. -/
theorem addedFor_concat (hl : ¬ Touches t l) :
    AddedFor (ls ++ [l]) t n ↔ AddedFor ls t n := by
  constructor
  · intro h
    obtain ⟨first, e, since, heq, hsince, hk⟩ := h
    rcases List.eq_nil_or_concat since with rfl | ⟨since, l', rfl⟩
    · obtain ⟨-, hlast⟩ := List.append_inj' heq rfl
      cases hlast
      exact absurd rfl hl
    · rw [List.concat_eq_append, ← List.cons_append, ← List.append_assoc]
        at heq
      obtain ⟨heq, -⟩ := List.append_inj' heq rfl
      exact ⟨first, e, since, heq, fun q hq => hsince q (by simp [hq]), hk⟩
  · intro h
    obtain ⟨first, e, since, rfl, hsince, hk⟩ := h
    refine ⟨first, e, since ++ [l], by simp, ?_, hk⟩
    intro q hq
    rcases List.mem_append.1 hq with hq | hq
    · exact hsince q hq
    · rw [List.mem_singleton.1 hq]
      exact hl

theorem addedFor_del : ¬ AddedFor (ls ++ [.del t]) t n := by
  intro h
  obtain ⟨first, e, since, heq, hsince, hk⟩ := h
  rcases List.eq_nil_or_concat since with rfl | ⟨since, l', rfl⟩
  · obtain ⟨-, hlast⟩ := List.append_inj' heq rfl
    cases hlast
  · rw [List.concat_eq_append, ← List.cons_append, ← List.append_assoc] at heq
    obtain ⟨-, hlast⟩ := List.append_inj' heq rfl
    cases hlast
    exact hsince (.del t) (by simp) rfl

theorem addedFor_add {e : Nat} :
    AddedFor (ls ++ [.add t e]) t n ↔ ticks ls + e = n := by
  constructor
  · intro h
    obtain ⟨first, e', since, heq, hsince, hk⟩ := h
    rcases List.eq_nil_or_concat since with rfl | ⟨since, l', rfl⟩
    · obtain ⟨rfl, hlast⟩ := List.append_inj' heq rfl
      cases hlast
      exact hk
    · rw [List.concat_eq_append, ← List.cons_append, ← List.append_assoc]
        at heq
      obtain ⟨-, hlast⟩ := List.append_inj' heq rfl
      cases hlast
      exact absurd rfl (hsince (.add t e) (by simp))
  · intro h
    exact ⟨ls, e, [], rfl, fun _ hq => absurd hq List.not_mem_nil, h⟩

/-- The calendar says what the calls say. -/
theorem calendar_due (hn : ticks ls < n) :
    (calendar ls).due t = some n ↔ AddedFor ls t n := by
  induction ls using List.reverseRecOn with
  | nil =>
      refine ⟨fun h => ?_, fun h => absurd h addedFor_nil⟩
      cases h
  | append_singleton ls l ih =>
      rw [ticks_append] at hn
      have ih := ih (by omega)
      rw [calendar_concat]
      cases l with
      | init t' =>
          have hnot : ¬ Touches t (.init t') := fun h => h
          rw [addedFor_concat hnot]
          exact ih
      | add t' e =>
          show Function.update (calendar ls).due t' _ t = some n ↔ _
          by_cases ht : t' = t
          · rw [ht, Function.update_self, addedFor_add, calendar_clock,
              Option.some_inj]
          · have hnot : ¬ Touches t (.add t' e) := ht
            rw [addedFor_concat hnot, Function.update_of_ne (Ne.symm ht)]
            exact ih
      | del t' =>
          show Function.update (calendar ls).due t' none t = some n ↔ _
          by_cases ht : t' = t
          · rw [ht, Function.update_self]
            refine ⟨fun h => ?_, fun h => absurd h addedFor_del⟩
            cases h
          · have hnot : ¬ Touches t (.del t') := ht
            rw [addedFor_concat hnot, Function.update_of_ne (Ne.symm ht)]
            exact ih
      | tick fired =>
          have hlt : ticks ls + 1 < n := hn
          have hnot : ¬ Touches t (.tick fired) := fun h => h
          rw [addedFor_concat hnot, ← ih]
          show (if _ then none else _) = some n ↔ _
          rw [calendar_clock]
          split
          case isTrue hdue =>
              rw [hdue]
              refine ⟨fun h => ?_, fun h => ?_⟩
              · cases h
              · have := Option.some.inj h
                omega
          case isFalse => exact Iff.rfl

/-- What is to fire next is what the calendar has for the next call. -/
theorem dueNext_iff :
    DueNext ls t ↔ (calendar ls).due t = some (ticks ls + 1) := by
  rw [calendar_due (Nat.lt_succ_self _)]
  constructor
  · intro h
    obtain ⟨first, e, since, heq, hsince, he⟩ := h
    refine ⟨first, e, since, heq, hsince, ?_⟩
    rw [heq, ticks_append]
    show _ = ticks first + ticks since + 1
    omega
  · intro h
    obtain ⟨first, e, since, heq, hsince, he⟩ := h
    refine ⟨first, e, since, heq, hsince, ?_⟩
    rw [heq, ticks_append] at he
    have hadd : ticks (.add t e :: since) = ticks since := rfl
    omega

-- ========================================================= the calls

/-- The list holds just the timers of the calendar. -/
structure Listed (k : Calendar) (s : State) (ts : List Nat) : Prop where
  linked : Linked k.clock k.due s ts
  mem : ∀ t, t ∈ ts ↔ k.due t ≠ none
  later : ∀ t n, k.due t = some n → k.clock < n
  fit : ∀ t n, k.due t = some n → n < k.clock + 2 ^ 32

variable {k : Calendar}

theorem Listed.start (h : Start s) : Listed (calendar []) s [] := by
  refine ⟨⟨h.list, fun t _ => h.timers t, trivial, ?_, h.word⟩, ?_, ?_, ?_⟩
  · intro t ht
    cases ht
  · intro t
    exact ⟨fun ht => absurd ht List.not_mem_nil, fun hne => absurd rfl hne⟩
  · intro t n hn
    cases hn
  · intro t n hn
    cases hn

theorem Listed.init (h : Listed k s ts) {proc : Option Nat} {expires : Int}
    (ht : t ∉ ts) : Listed k (timerInit t proc expires s) ts := by
  have hother : ∀ {α : Type} {f : Nat → α} {x : α}, ∀ q ∈ ts,
      Function.update f t x q = f q := fun q hq => update_mem ht hq
  refine ⟨⟨?_, ?_, h.linked.sums.congr hother (fun _ _ => rfl), ?_, ?_⟩,
    h.mem, h.later, h.fit⟩
  · refine listInit_ring_of_notMem h.linked.ring ?_
    intro hm
    rcases List.mem_cons.1 hm with hm | hm
    · cases hm
    · exact ht (mem_links.1 hm)
  · intro q hq
    by_cases hqt : q = t
    · rw [hqt]
      exact listInit_ring _ _
    · refine listInit_ring_of_notMem (h.linked.free q hq) ?_
      intro hm
      exact hqt (Entry.timerLink.inj (List.mem_singleton.1 hm)).symm
  · intro q hq
    show Function.update s.proc t proc q ≠ none
    rw [hother q hq]
    exact h.linked.proc q hq
  · intro q
    show Function.update s.expires t _ q < _
    by_cases hqt : q = t
    · rw [hqt, Function.update_self]
      omega
    · rw [Function.update_of_ne hqt]
      exact h.linked.word q

theorem Listed.add (h : Listed k s ts)
    (hcall : addTimer fuel t s = .ok s') :
    ∃ ts', Listed (k.step (.add t (s.expires t))) s' ts' := by
  have ht : t ∉ ts := by
    rw [addTimer] at hcall
    split at hcall
    case isTrue hguard => exact h.linked.empty_iff.1 hguard.2.2
    case isFalse => cases hcall
  have hmore := addTimer_more (ts.length + 1) hcall
  obtain ⟨hpos, mid, rest, rfl, hl⟩ := addTimer_linked h.linked ht hmore
    (by omega)
  have hw := h.linked.word t
  refine ⟨mid ++ t :: rest, hl, ?_, ?_, ?_⟩
  · intro q
    have hmem := h.mem q
    show _ ↔ Function.update k.due t _ q ≠ none
    by_cases hqt : q = t
    · rw [hqt, Function.update_self]
      simp
    · rw [Function.update_of_ne hqt, ← hmem]
      simp [hqt]
  · intro q n hn
    have hn : Function.update k.due t _ q = some n := hn
    by_cases hqt : q = t
    · rw [hqt, Function.update_self] at hn
      have heq := Option.some.inj hn
      show k.clock < n
      omega
    · rw [Function.update_of_ne hqt] at hn
      exact h.later q n hn
  · intro q n hn
    have hn : Function.update k.due t _ q = some n := hn
    by_cases hqt : q = t
    · rw [hqt, Function.update_self] at hn
      have heq := Option.some.inj hn
      show n < k.clock + _
      omega
    · rw [Function.update_of_ne hqt] at hn
      exact h.fit q n hn

/-- The difference a deleted timer leaves goes with the next one's into a
word. -/
theorem Listed.fits (h : Listed k s (pre ++ t :: n :: rest)) :
    s.expires n + s.expires t < 2 ^ 32 := by
  obtain ⟨c, hle, -, hn, -⟩ := h.linked.sums.tail
  have hfit := h.fit n _ hn
  omega

theorem Listed.del (h : Listed k s ts) :
    ∃ ts', Listed (k.step (.del t)) (delTimer t s) ts' := by
  have hstep : ∀ q, (k.step (.del t)).due q
      = if q = t then none else k.due q := by
    intro q
    show Function.update k.due t none q = _
    rw [Function.update_apply]
  have hkeep : ∀ q n, (k.step (.del t)).due q = some n → k.due q = some n := by
    intro q n hn
    rw [hstep] at hn
    split at hn
    · cases hn
    · exact hn
  by_cases ht : t ∈ ts
  · obtain ⟨pre, suf, rfl⟩ := List.append_of_mem ht
    have hnd := h.linked.nodup
    have hdel := delTimer_linked h.linked fun n rest hcut => by
      rw [hcut] at h
      exact h.fits
    have htout : t ∉ pre ++ suf :=
      (List.nodup_cons.1 (List.perm_middle.nodup_iff.1 hnd)).1
    refine ⟨pre ++ suf, ⟨hdel.ring, hdel.free, ?_, hdel.proc, hdel.word⟩, ?_,
      ?_, ?_⟩
    · refine hdel.sums.congr (fun _ _ => rfl) (fun q hq => ?_)
      exact update_mem htout hq
    · intro q
      have hmem := h.mem q
      rw [hstep]
      by_cases hqt : q = t
      · rw [if_pos hqt, hqt]
        exact ⟨fun hm => absurd hm htout, fun hne => absurd rfl hne⟩
      · rw [if_neg hqt, ← hmem]
        simp [hqt]
    · intro q n hn
      exact h.later q n (hkeep q n hn)
    · intro q n hn
      exact h.fit q n (hkeep q n hn)
  · have hnone : k.due t = none := by
      by_contra hne
      exact ht ((h.mem t).2 hne)
    have heq : (k.step (.del t)) = k := by
      show { k with due := Function.update k.due t none } = k
      rw [← hnone, Function.update_eq_self]
    rw [heq, delTimer_free h.linked ht]
    exact ⟨ts, h⟩

theorem Listed.tick (h : Listed k s ts)
    (hcall : runTimerList fuel ps s = .ok (fired, s')) :
    (fired.Nodup ∧ ∀ t, t ∈ fired ↔ k.due t = some (k.clock + 1))
      ∧ ∃ ts', Listed (k.step (.tick fired)) s' ts' := by
  have hmore := runTimerList_more (ts.length + 1) hcall
  have htime : ts.length < fuel + (ts.length + 1) := by omega
  have hspec := runTimerList_spec h.linked (fun t _ n hn => h.later t n hn)
    htime ps
  rw [hmore] at hspec
  obtain heq | heq | ⟨gone, s₁, rest, heq, hcut, hnow, hlater, hl⟩ := hspec
  · cases heq
  · cases heq
  · cases heq
    have hnd := h.linked.nodup
    rw [hcut] at hnd
    have hiff : ∀ t, t ∈ fired ↔ k.due t = some (k.clock + 1) := by
      intro t
      refine ⟨hnow t, fun hdue => ?_⟩
      have hm : t ∈ ts := by
        rw [h.mem, hdue]
        exact Option.some_ne_none _
      rw [hcut] at hm
      rcases List.mem_append.1 hm with hm | hm
      · exact hm
      · obtain ⟨n, hn, hlt⟩ := hlater t hm
        have := Option.some.inj (hn.symm.trans hdue)
        omega
    have hstep : ∀ t, (k.step (.tick fired)).due t
        = if t ∈ fired then none else k.due t := by
      intro t
      show (if _ then none else _) = _
      simp only [hiff t]
    refine ⟨⟨(List.nodup_append.1 hnd).1, hiff⟩, rest, ?_, ?_, ?_, ?_⟩
    · refine ⟨hl.ring, hl.free, ?_, hl.proc, hl.word⟩
      refine hl.sums.congr (fun _ _ => rfl) (fun q hq => ?_)
      rw [hstep, if_neg]
      intro hm
      exact (List.nodup_append.1 hnd).2.2 q hm q hq rfl
    · intro q
      rw [hstep]
      have hmem := h.mem q
      rw [hcut, List.mem_append] at hmem
      split
      case isTrue hq =>
          refine ⟨fun hm => ?_, fun hne => absurd rfl hne⟩
          exact absurd rfl ((List.nodup_append.1 hnd).2.2 q hq q hm)
      case isFalse hq =>
          rw [← hmem]
          exact ⟨.inr, fun hm => hm.resolve_left hq⟩
    · intro q n hn
      rw [hstep] at hn
      split at hn
      · cases hn
      · have hlt := h.later q n hn
        rename_i hq
        rw [hiff q, hn] at hq
        have hne : n ≠ k.clock + 1 := fun heq => hq (by rw [heq])
        show k.clock + 1 < n
        omega
    · intro q n hn
      rw [hstep] at hn
      split at hn
      · cases hn
      · have hlt := h.fit q n hn
        show n < k.clock + 1 + _
        omega

/-- What one call does: it keeps the list what the calendar says, and
`run_timer_list` fires what is due. -/
theorem Listed.step (h : Listed k s ts) (hs : Step s l s') :
    (∃ ts', Listed (k.step l) s' ts')
      ∧ ∀ fired, l = .tick fired →
        fired.Nodup ∧ ∀ t, t ∈ fired ↔ k.due t = some (k.clock + 1) := by
  cases hs with
  | init hfree =>
      refine ⟨⟨ts, h.init (h.linked.empty_iff.1 hfree)⟩, ?_⟩
      intro fired heq
      cases heq
  | add hcall =>
      refine ⟨h.add hcall, ?_⟩
      intro fired heq
      cases heq
  | del =>
      refine ⟨h.del, ?_⟩
      intro fired heq
      cases heq
  | tick hcall =>
      obtain ⟨hfires, hl⟩ := h.tick hcall
      refine ⟨hl, ?_⟩
      intro fired heq
      cases heq
      exact hfires

-- ========================================================== the runs

/-- A run goes on from the calls before it. -/
theorem Listed.run (h : Listed (calendar before) s ts)
    (hrun : Run Step s ls s') :
    (∃ ts', Listed (calendar (before ++ ls)) s' ts')
      ∧ ∀ mid fired rest, ls = mid ++ .tick fired :: rest →
        fired.Nodup ∧ ∀ t, t ∈ fired ↔ DueNext (before ++ mid) t := by
  induction hrun generalizing before ts with
  | nil s =>
      rw [List.append_nil]
      refine ⟨⟨ts, h⟩, ?_⟩
      intro mid fired rest heq
      exact absurd heq.symm (List.append_ne_nil_of_right_ne_nil mid
        (List.cons_ne_nil _ _))
  | @cons s s₁ s' l ls hs _ ih =>
      obtain ⟨⟨ts₁, h₁⟩, hfires⟩ := h.step hs
      rw [← calendar_concat] at h₁
      obtain ⟨hl, hrest⟩ := ih h₁
      rw [List.append_assoc] at hl
      refine ⟨hl, ?_⟩
      intro mid fired rest heq
      cases mid with
      | nil =>
          obtain ⟨hl, -⟩ := List.cons.inj heq
          obtain ⟨hnd, hiff⟩ := hfires fired hl
          refine ⟨hnd, fun t => ?_⟩
          rw [hiff, List.append_nil, dueNext_iff, calendar_clock]
      | cons l' mid =>
          obtain ⟨rfl, htail⟩ := List.cons.inj heq
          obtain ⟨hnd, hiff⟩ := hrest mid fired rest htail
          refine ⟨hnd, fun t => ?_⟩
          rw [hiff, List.append_assoc]
          rfl

/-- Every timer fires at the call it was added for and not otherwise, whatever
is added and deleted around it. The first timer is never found at 0; only what
`run_timer_list` asserts about the processes can stop it, and `add_timer` takes
every timer that is set up and not on the list. -/
theorem timers_onTime (s₀ : State) (ls : List Label) (s : State)
    (hstart : Start s₀) (hrun : Run Step s₀ ls s) :
    OnTime ls
      ∧ (∀ fuel ps, runTimerList fuel ps s ≠ .error .headExpires)
      ∧ (∃ time, ∀ fuel ps, time < fuel →
          runTimerList fuel ps s = .error .waitState
            ∨ runTimerList fuel ps s = .error .zombie
            ∨ ∃ r, runTimerList fuel ps s = .ok r)
      ∧ (∃ time, ∀ fuel t, time < fuel →
          listEmpty s.links (.timerLink t) = true → 0 < s.expires t →
          s.proc t ≠ none → ∃ s', addTimer fuel t s = .ok s') := by
  obtain ⟨⟨ts, h⟩, hfires⟩ := (Listed.start hstart).run hrun
  refine ⟨hfires, ?_, ⟨ts.length, ?_⟩, ts.length, ?_⟩
  · intro fuel ps
    exact runTimerList_head h.linked (fun t _ n hn => h.later t n hn) fuel ps
  · intro fuel ps hfuel
    have hspec := runTimerList_spec h.linked
      (fun t _ n hn => h.later t n hn) hfuel ps
    obtain herr | herr | ⟨gone, s', rest, hok, -⟩ := hspec
    · exact .inl herr
    · exact .inr (.inl herr)
    · exact .inr (.inr ⟨_, hok⟩)
  · intro fuel t hfuel hempty hpos hproc
    exact addTimer_ok h.linked (h.linked.empty_iff.1 hempty) hpos hproc hfuel

/-- Of a timer for one call and one for two, the first fires at the first. -/
theorem timers_onTime_two :
    OnTime [.init 0, .init 1, .add 0 1, .add 1 2, .tick [0]] := by
  let s₂ := timerInit 1 (some 8) 2 (timerInit 0 (some 7) 1 empty)
  let s₃ := ((addTimer 4 0 s₂).toOption).getD s₂
  let s₄ := ((addTimer 4 1 s₃).toOption).getD s₃
  have hfired : (runTimerList 4 waiting s₄).toOption.map Prod.fst
      = some [0] := by
    decide +kernel
  cases htick : runTimerList 4 waiting s₄ with
  | error e =>
      rw [htick] at hfired
      cases hfired
  | ok r =>
      obtain ⟨fired, s₅⟩ := r
      rw [htick] at hfired
      cases hfired
      have hrun : Run Step empty
          [.init 0, .init 1, .add 0 1, .add 1 2, .tick [0]] s₅ := by
        refine .cons (.init rfl) (.cons (show Step _ (.init 1) s₂ from .init rfl) ?_)
        refine .cons (.add (show addTimer 4 0 s₂ = .ok s₃ from rfl)) ?_
        refine .cons (.add (show addTimer 4 1 s₃ = .ok s₄ from rfl)) ?_
        exact .single (.tick htick)
      exact (timers_onTime empty _ _ .empty hrun).1

end Ucore.Timer
