/-
The clock algorithm takes the first page that the hand comes to whose flag is
clear. The hand is followed move by move (`handAt`): a flag is clear when the
hand comes to a page that it has passed, so the second time around ends the
loop.
-/
import Ucore.Swap.Clock
import Ucore.Swap.Proofs.Queue
import Mathlib.Data.Nat.Find

namespace Ucore.Swap

open Ucore.Ring
open Ucore.Loop (Round)

variable {s t : Clock} {q : List Nat} {i j p victim : Nat} {mm : MmStruct}

/-- The hand is on the queue, or at its head. -/
structure Clock.Sound (s : Clock) (q : List Nat) : Prop where
  queue : Queue s.links q
  hand : s.currPtr ∈ Link.praListHead :: q.map Link.page

/-- The state in which the hand has made `i` moves. -/
def Clock.after (s : Clock) (i : Nat) : Clock :=
  { s with visited := s.flagAt i, currPtr := s.handAt i }

/-- The page is the first that the hand comes to with a clear flag, after `i`
moves. It alone is taken from the queue. -/
structure Clock.Evicts (s : Clock) (q : List Nat) (i victim : Nat)
    (t : Clock) : Prop where
  arrived : s.handAt i = .page victim
  clear : s.flagAt i victim = 0
  first : ∀ j < i, ∀ p, s.handAt j = .page p → s.flagAt j p ≠ 0
  flags : t.visited = s.flagAt i
  member : victim ∈ q
  left : t.Sound (q.erase victim)
  moved : t.currPtr = s.handAt (i + 1)

-- ==================================================== the hand's way

theorem handAt_succ : s.handAt (i + 1) = listPrev s.links (s.handAt i) :=
  Function.iterate_succ_apply' _ _ _

theorem flagAt_zero : s.flagAt 0 = s.visited := by
  funext p
  apply if_neg
  intro hpassed
  obtain ⟨j, hj, -⟩ := hpassed
  exact absurd hj (Nat.not_lt_zero j)

theorem after_zero : s.after 0 = s := by
  unfold Clock.after
  rw [flagAt_zero]
  rfl

theorem passed_succ :
    s.Passed (i + 1) p ↔ s.Passed i p ∨ s.handAt i = .page p := by
  constructor
  · intro hpassed
    obtain ⟨j, hj, hat⟩ := hpassed
    rcases Nat.lt_succ_iff_lt_or_eq.1 hj with hlt | rfl
    · exact .inl ⟨j, hlt, hat⟩
    · exact .inr hat
  · intro hor
    rcases hor with hpassed | hat
    · obtain ⟨j, hj, hat⟩ := hpassed
      exact ⟨j, Nat.lt_succ_of_lt hj, hat⟩
    · exact ⟨i, Nat.lt_succ_self i, hat⟩

/-- A move from the head clears no flag. -/
theorem flagAt_succ_head (h : s.handAt i = .praListHead) :
    s.flagAt (i + 1) = s.flagAt i := by
  funext p
  unfold Clock.flagAt
  simp [passed_succ, h]

/-- A move from a page clears its flag. -/
theorem flagAt_succ_page (h : s.handAt i = .page p) :
    s.flagAt (i + 1) = Function.update (s.flagAt i) p 0 := by
  funext c
  unfold Clock.flagAt
  by_cases hc : c = p
  · have hpassed : s.Passed (i + 1) p := passed_succ.2 (.inr h)
    rw [hc, Function.update_self, if_pos hpassed]
  · have hcp : ¬ p = c := fun heq => hc heq.symm
    rw [Function.update_of_ne hc]
    simp [passed_succ, h, hcp]

/-- The flag of a page that was passed is clear. -/
theorem flagAt_passed (h : s.Passed i p) : s.flagAt i p = 0 :=
  if_pos h

-- ========================================================== the loop

/-- The hand moves on from the head, and from a page whose flag is set. -/
theorem clockRound_again
    (h : ∀ p, s.handAt i = .page p → s.flagAt i p ≠ 0) :
    clockRound .praListHead (s.after i) = .again (s.after (i + 1)) := by
  unfold clockRound
  cases hat : s.handAt i with
  | praListHead =>
      have hcurr : (s.after i).currPtr = .praListHead := hat
      rw [if_pos hcurr]
      unfold Clock.after
      rw [handAt_succ, flagAt_succ_head hat]
  | page p =>
      have hcurr : (s.after i).currPtr = .page p := hat
      have hset : ¬ (s.after i).visited p = 0 := h p hat
      rw [if_neg (by simp [hcurr]), hcurr]
      simp only [le2page]
      rw [if_neg hset]
      unfold Clock.after
      rw [handAt_succ, flagAt_succ_page hat, hat]

/-- It stops at a page whose flag is clear. -/
theorem clockRound_stop (hat : s.handAt i = .page p)
    (hclear : s.flagAt i p = 0) :
    clockRound .praListHead (s.after i)
      = .stop (some (p, { s with
          links := listDel s.links (listNext s.links (s.handAt (i + 1)))
          visited := s.flagAt i
          currPtr := s.handAt (i + 1) })) := by
  have hcurr : (s.after i).currPtr = .page p := hat
  have hzero : (s.after i).visited p = 0 := hclear
  unfold clockRound
  rw [if_neg (by simp [hcurr]), hcurr]
  simp only [le2page]
  rw [if_pos hzero, handAt_succ, hat]
  rfl

-- ========================================================= the queue

theorem mem_reverse {c : Link} :
    c ∈ Link.praListHead :: (q.map Link.page).reverse
      ↔ c ∈ Link.praListHead :: q.map Link.page := by
  simp only [List.mem_cons, List.mem_reverse]

theorem Clock.Sound.handAt_mem (h : s.Sound q) (i : Nat) :
    s.handAt i ∈ Link.praListHead :: q.map Link.page := by
  induction i with
  | zero => exact h.hand
  | succ i ih =>
      rw [handAt_succ]
      have hcircle := IsRing.circle_prev h.queue
      exact mem_reverse.1 (hcircle.next_mem (mem_reverse.2 ih))

/-- After a sweep the hand is where it was. -/
theorem Clock.Sound.handAt_sweep (h : s.Sound q) (i : Nat) :
    s.handAt (q.length + 1 + i) = s.handAt i := by
  have hround := (IsRing.circle_prev h.queue).iterate_length
    (mem_reverse.2 (h.handAt_mem i))
  rw [List.length_cons, List.length_reverse, List.length_map] at hround
  unfold Clock.handAt at *
  rw [Function.iterate_add_apply]
  exact hround

/-- One of the first two places of the hand is a page. -/
theorem Clock.Sound.exists_page (h : s.Sound q) (hne : q ≠ []) :
    ∃ i p, i ≤ 1 ∧ s.handAt i = .page p := by
  cases hfirst : s.handAt 0 with
  | page p => exact ⟨0, p, Nat.zero_le 1, hfirst⟩
  | praListHead =>
      have hlast : q = q.dropLast ++ [q.getLast hne] :=
        (List.dropLast_append_getLast hne).symm
      have hqueue := h.queue
      rw [hlast] at hqueue
      refine ⟨1, q.getLast hne, Nat.le_refl 1, ?_⟩
      rw [handAt_succ, hfirst]
      exact hqueue.prev_concat

/-- The hand comes to a page with a clear flag before its second sweep
ends. -/
theorem Clock.Sound.exists_clear (h : s.Sound q) (hne : q ≠ []) :
    ∃ i p, i < 2 * (q.length + 1) ∧ s.handAt i = .page p
      ∧ s.flagAt i p = 0 := by
  obtain ⟨i, p, hi, hat⟩ := h.exists_page hne
  have hlen : 0 < q.length := List.length_pos_iff.2 hne
  have hagain := h.handAt_sweep i
  refine ⟨q.length + 1 + i, p, ?_, hagain.trans hat, ?_⟩
  · omega
  · apply flagAt_passed
    exact ⟨i, by omega, hat⟩

/-- The page under the hand is unlinked, and the hand has moved off it. -/
theorem Clock.Sound.unlink (h : s.Sound q) (hat : s.handAt i = .page p)
    (hlinks : t.links
      = listDel s.links (listNext s.links (s.handAt (i + 1))))
    (hcurr : t.currPtr = s.handAt (i + 1)) :
    p ∈ q ∧ t.Sound (q.erase p) := by
  have hmem : p ∈ q := by
    have hin := h.handAt_mem i
    rw [hat] at hin
    simpa using hin
  obtain ⟨pre, suf, rfl⟩ := List.append_of_mem hmem
  have hnodup := h.queue.nodup
  have hnot : p ∉ pre := by
    intro hpre
    exact (List.nodup_append.1 hnodup).2.2 p hpre p List.mem_cons_self rfl
  have herase : (pre ++ p :: suf).erase p = pre ++ suf := by
    rw [List.erase_append_right _ hnot, List.erase_cons_head]
  have hring : IsRing s.links .praListHead
      (pre.map .page ++ .page p :: suf.map .page) := by
    have hqueue := h.queue
    unfold Queue at hqueue
    rwa [List.map_append, List.map_cons] at hqueue
  have hprev : s.handAt (i + 1)
      = before .praListHead (pre.map Link.page) := by
    rw [handAt_succ, hat]
    exact hring.prev_after
  have hnext : listNext s.links (s.handAt (i + 1)) = .page p := by
    rw [hprev]
    exact hring.next_before
  refine ⟨hmem, ?_, ?_⟩
  · rw [herase, hlinks, hnext]
    unfold Queue
    rw [List.map_append]
    exact listDel_ring hring
  · rw [herase, hcurr, hprev, List.map_append]
    exact List.mem_append_left _ (before_mem _ (pre.map Link.page))

-- ===================================================== map_swappable

/-- A new page comes to the front of the queue, and the hand stays where it
is. -/
theorem clockMapSwappable_sound (h : s.Sound q)
    (hpriv : mm.smPriv = some .praListHead) (hp : p ∉ q) :
    ∃ t, clockMapSwappable mm p s = some ((), t) ∧ t.Sound (p :: q)
      ∧ t.currPtr = s.currPtr := by
  unfold clockMapSwappable
  rw [hpriv]
  refine ⟨_, rfl, ⟨h.queue.add hp, ?_⟩, rfl⟩
  show s.currPtr ∈ _
  rcases List.mem_cons.1 h.hand with hhead | hin
  · rw [hhead]
    exact List.mem_cons_self
  · exact List.mem_cons_of_mem _ (List.mem_cons_of_mem _ hin)

-- =================================================== swap_out_victim

/-- Within two sweeps the hand comes to the victim, which is the first page
with a clear flag. -/
theorem clockSwapOutVictim_evicts (h : s.Sound q) (hne : q ≠ [])
    (hpriv : mm.smPriv = some .praListHead) :
    ∃ i victim t, i < 2 * (q.length + 1) ∧ s.Evicts q i victim t
      ∧ ∀ rounds, i < rounds →
        clockSwapOutVictim rounds mm 0 s = some (victim, t) := by
  have hexists : ∃ i, ∃ p, s.handAt i = .page p ∧ s.flagAt i p = 0 := by
    obtain ⟨i, p, -, hat, hclear⟩ := h.exists_clear hne
    exact ⟨i, p, hat, hclear⟩
  classical
  obtain ⟨victim, hat, hclear⟩ := Nat.find_spec hexists
  have hfirst : ∀ j < Nat.find hexists, ∀ p, s.handAt j = .page p →
      s.flagAt j p ≠ 0 := by
    intro j hj p hjat hzero
    exact Nat.find_min hexists hj ⟨p, hjat, hzero⟩
  have hbound : Nat.find hexists < 2 * (q.length + 1) := by
    obtain ⟨i, p, hi, hiat, hzero⟩ := h.exists_clear hne
    exact Nat.lt_of_le_of_lt (Nat.find_min' hexists ⟨p, hiat, hzero⟩) hi
  generalize Nat.find hexists = i at *
  obtain ⟨hmem, hleft⟩ := @Clock.Sound.unlink s
    { s with
      links := listDel s.links (listNext s.links (s.handAt (i + 1)))
      visited := s.flagAt i
      currPtr := s.handAt (i + 1) } q i victim h hat rfl rfl
  refine ⟨i, victim, _, hbound,
    ⟨hat, hclear, hfirst, rfl, hmem, hleft, rfl⟩, ?_⟩
  intro rounds hrounds
  obtain ⟨n, rfl⟩ := Nat.exists_eq_add_of_lt hrounds
  have hskip := @Loop.run_from _ _ (clockRound .praListHead) s.after i
    (fun j hj => clockRound_again (hfirst j hj)) (n + 1)
  rw [after_zero, Loop.run_stop (clockRound_stop hat hclear)] at hskip
  unfold clockSwapOutVictim
  rw [hpriv]
  show (Loop.run (clockRound .praListHead) (i + n + 1) s).join = _
  rw [Nat.add_assoc, hskip]
  rfl

/-- Two pages, both with their flag set, and the hand at the head. The hand
comes back to the second page. -/
def clockTwo : Clock where
  links := listAdd (listAdd (listInit ⟨id, id⟩ .praListHead)
    .praListHead (.page 1)) .praListHead (.page 2)
  visited _ := 1
  currPtr := .praListHead

theorem clockTwo_sound : clockTwo.Sound [2, 1] := by
  refine ⟨?_, List.mem_cons_self⟩
  apply Queue.add
  · apply Queue.add (queue_init _)
    simp
  · simp

/-- An `mm_struct` whose pages are on the list. -/
def clockMm : MmStruct where
  mmapList := []
  mmapCache := none
  pgdir := 0
  mapCount := 0
  mmCount := 1
  smPriv := some .praListHead

theorem clockSwapOutVictim_evicts_two :
    clockTwo.Sound [2, 1] ∧ ∃ i victim t, i < 2 * ([2, 1].length + 1)
      ∧ clockTwo.Evicts [2, 1] i victim t
      ∧ ∀ rounds, i < rounds →
        clockSwapOutVictim rounds clockMm 0 clockTwo = some (victim, t) :=
  ⟨clockTwo_sound,
    clockSwapOutVictim_evicts clockTwo_sound (by simp) rfl⟩

end Ucore.Swap
