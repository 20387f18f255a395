/-
`dev_stdin_write` stores a character before it asks whether there is room. In
a full buffer the place behind the last character is that of the first one,
which is lost unless it is the same.
-/
import Ucore.Vfs.Stdin

namespace Ucore.Vfs

variable {ν : Type} {s : Stdin ν} {c : UInt8}

/-- The positions are at most the size of the buffer apart. -/
structure Stdin.Sound (s : Stdin ν) : Prop where
  ordered : s.pRpos ≤ s.pWpos
  room : s.pWpos ≤ s.pRpos + stdinBufsize

theorem length_pending (s : Stdin ν) :
    s.pending.length = s.pWpos - s.pRpos :=
  length_window

-- =================================================== dev_stdin_write

theorem Stdin.Sound.write (h : s.Sound) (c : UInt8) :
    (devStdinWrite s c).Sound := by
  have hordered := h.ordered
  have hroom := h.room
  unfold devStdinWrite
  by_cases hc : c ≠ 0
  · rw [if_pos hc]
    constructor
    · show s.pRpos ≤ if s.pWpos - s.pRpos < stdinBufsize then _ else _
      split <;> omega
    · show (if s.pWpos - s.pRpos < stdinBufsize then _ else _)
        ≤ s.pRpos + stdinBufsize
      split <;> omega
  · rw [if_neg hc]
    exact h

/-- A character comes behind the others where there is room. -/
theorem pending_write (h : s.Sound) (hc : c ≠ 0)
    (hroom : s.pending.length < stdinBufsize) :
    (devStdinWrite s c).pending = s.pending ++ [c] := by
  rw [length_pending] at hroom
  have hordered := h.ordered
  have hplace : s.pWpos = s.pRpos + (s.pWpos - s.pRpos) := by omega
  have hcount : s.pWpos + 1 - s.pRpos = s.pWpos - s.pRpos + 1 := by omega
  unfold devStdinWrite
  rw [if_pos hc]
  unfold Stdin.pending
  dsimp only
  rw [if_pos hroom, hcount]
  conv_lhs => rw [hplace]
  rw [Nat.add_sub_cancel_left]
  exact window_put hroom

/-- Where there is none, it is stored over the first of them. -/
theorem pending_write_full (h : s.Sound) (hc : c ≠ 0)
    (hfull : s.pending.length = stdinBufsize) :
    (devStdinWrite s c).pending = c :: s.pending.tail := by
  rw [length_pending] at hfull
  have hordered := h.ordered
  have hplace : s.pWpos = s.pRpos + stdinBufsize := by omega
  have hsize : stdinBufsize = (stdinBufsize - 1) + 1 := rfl
  have hno : ¬ s.pWpos - s.pRpos < stdinBufsize := by omega
  have hpending : s.pending = s.stdinBuffer (s.pRpos % stdinBufsize)
      :: window stdinBufsize s.stdinBuffer (s.pRpos + 1)
        (stdinBufsize - 1) := by
    unfold Stdin.pending
    rw [hfull]
    exact window_cons
  rw [hpending, List.tail_cons]
  unfold devStdinWrite
  rw [if_pos hc]
  unfold Stdin.pending
  dsimp only
  rw [if_neg hno, hfull, hplace]
  exact window_overwrite hsize

-- ==================================================== dev_stdin_read

/-- The loop reads the first of the pending characters. -/
theorem devStdinReadLoop_spec (left : Nat) (h : s.Sound) :
    (devStdinReadLoop left s).2.2.Sound
      ∧ s.pending = (devStdinReadLoop left s).1
        ++ (devStdinReadLoop left s).2.2.pending := by
  induction left generalizing s with
  | zero => exact ⟨h, rfl⟩
  | succ left ih =>
      unfold devStdinReadLoop
      by_cases hsome : s.pRpos < s.pWpos
      · have hroom := h.room
        have hnext : Stdin.Sound { s with pRpos := s.pRpos + 1 } := by
          refine ⟨hsome, ?_⟩
          show s.pWpos ≤ s.pRpos + 1 + stdinBufsize
          omega
        obtain ⟨hsound, hrest⟩ := ih hnext
        have hcount : s.pWpos - s.pRpos = s.pWpos - (s.pRpos + 1) + 1 := by
          omega
        rw [if_pos hsome]
        refine ⟨hsound, ?_⟩
        show s.pending = s.stdinBuffer (s.pRpos % stdinBufsize) :: (_ ++ _)
        rw [← hrest]
        unfold Stdin.pending
        rw [hcount]
        exact window_cons
      · rw [if_neg hsome]
        exact ⟨h, rfl⟩

section Calls

variable [DecidableEq ν]

/-- What a process reads before it returns or sleeps are the first
characters. -/
theorem devStdinReadOn_spec (h : s.Sound) (i : ν) (ret left : Nat) :
    (devStdinReadOn s i ret left).2.Sound
      ∧ s.pending = (devStdinReadOn s i ret left).1.got
        ++ (devStdinReadOn s i ret left).2.pending := by
  obtain ⟨hsound, hread⟩ := devStdinReadLoop_spec left h
  unfold devStdinReadOn
  dsimp only
  split
  case isTrue => exact ⟨⟨hsound.ordered, hsound.room⟩, hread⟩
  case isFalse => exact ⟨⟨hsound.ordered, hsound.room⟩, hread⟩

/-- Every call but the arrival of a character reads the first characters. -/
theorem stdinCall_spec (h : s.Sound) (call : StdinCall ν)
    (hcall : ∀ c, call ≠ .write c) :
    (stdinCall s call).2.Sound
      ∧ s.pending = (stdinCall s call).1.got
        ++ (stdinCall s call).2.pending := by
  cases call with
  | write c => exact absurd rfl (hcall c)
  | read i len =>
      unfold stdinCall
      dsimp only
      cases s.waits i with
      | none => exact devStdinReadOn_spec h i 0 len
      | some wait => exact ⟨h, rfl⟩
  | kill i =>
      unfold stdinCall
      dsimp only
      cases s.waits i with
      | none => exact ⟨h, rfl⟩
      | some wait => exact ⟨⟨h.ordered, h.room⟩, rfl⟩
  | resume i =>
      unfold stdinCall
      dsimp only
      cases s.waits i with
      | none => exact ⟨h, rfl⟩
      | some wait =>
          dsimp only
          by_cases hrun : wait.runnable = true
          · by_cases hkbd : wait.wakeupFlags = .kbd
            · rw [if_pos hrun, if_pos hkbd]
              exact devStdinReadOn_spec h i wait.ret wait.left
            · rw [if_pos hrun, if_neg hkbd]
              exact ⟨⟨h.ordered, h.room⟩, rfl⟩
          · rw [if_neg hrun]
            exact ⟨h, rfl⟩

theorem Stdin.Sound.call (h : s.Sound) (call : StdinCall ν) :
    (stdinCall s call).2.Sound := by
  cases call with
  | write c => exact h.write c
  | read i len => exact (stdinCall_spec h _ (by simp)).1
  | kill i => exact (stdinCall_spec h _ (by simp)).1
  | resume i => exact (stdinCall_spec h _ (by simp)).1

-- ============================================================ a call

/-- A character that comes leaves the order exactly if it is harmless. -/
theorem accepts_write_iff (h : s.Sound) (c : UInt8) :
    accepts (fifo stdinBufsize) s.pending (puts (if c ≠ 0 then [c] else []))
        = some (devStdinWrite s c).pending
      ↔ Harmless s (.write c) := by
  have hle : s.pending.length ≤ stdinBufsize := by
    have hroom := h.room
    rw [length_pending]
    omega
  rw [accepts_puts hle, Option.some.injEq]
  by_cases hc : c ≠ 0
  · rw [if_pos hc]
    by_cases hfull : s.pending.length = stdinBufsize
    · have hnone : stdinBufsize - s.pending.length = 0 := by omega
      rw [pending_write_full h hc hfull, hnone, List.take_zero,
        List.append_nil]
      cases hpending : s.pending with
      | nil =>
          rw [hpending] at hfull
          exact absurd hfull (by decide)
      | cons d ds =>
          have hhead : s.pending.head? = some d := by
            rw [hpending]
            rfl
          rw [List.tail_cons, List.cons.injEq]
          constructor
          · intro heq _ _
            rw [hhead, heq.1]
          · intro hharmless
            have hdc := hharmless hc hfull
            rw [hhead] at hdc
            exact ⟨Option.some.inj hdc, rfl⟩
    · have hroom : s.pending.length < stdinBufsize := by omega
      have htake : [c].take (stdinBufsize - s.pending.length) = [c] :=
        List.take_of_length_le (by simp; omega)
      rw [pending_write h hc hroom, htake]
      exact ⟨fun _ _ hno => absurd hno hfull, fun _ => rfl⟩
  · have hsame : devStdinWrite s c = s := by
      unfold devStdinWrite
      rw [if_neg hc]
    rw [if_neg hc, List.take_nil, List.append_nil, hsame]
    exact ⟨fun _ hno => absurd hno hc, fun _ => rfl⟩

theorem stdin_accepts_iff (h : s.Sound) (call : StdinCall ν) :
    accepts (fifo stdinBufsize) s.pending
        (stdinEvents call (stdinCall s call).1)
          = some (stdinCall s call).2.pending
      ↔ Harmless s call := by
  have hreads : ∀ call : StdinCall ν, (∀ c, call ≠ .write c) →
      accepts (fifo stdinBufsize) s.pending
        (takes (stdinCall s call).1.got)
          = some (stdinCall s call).2.pending := by
    intro call hcall
    exact accepts_takes.2 (stdinCall_spec h call hcall).2
  cases call with
  | write c => exact accepts_write_iff h c
  | read i len => exact iff_of_true (hreads _ (by simp)) trivial
  | kill i => exact iff_of_true (hreads _ (by simp)) trivial
  | resume i => exact iff_of_true (hreads _ (by simp)) trivial

theorem stdinStart_sound : (stdinStart : Stdin ν).Sound :=
  ⟨Nat.le_refl 0, Nat.zero_le _⟩

-- ============================================================= a run

/-- The buffer is a queue at every time exactly if every character that comes
to a full buffer is the one that has waited longest. -/
theorem stdin_inOrder (calls : List (StdinCall ν)) :
    (∀ pre, pre <+: calls → StdinInOrder pre)
      ↔ ∀ pre call, pre ++ [call] <+: calls →
        Harmless (stateAfter stdinCall stdinStart pre) call :=
  @keeps_iff _ _ _ _ _ stdinCall stdinEvents (fifo stdinBufsize)
    Stdin.pending Stdin.Sound Harmless stdinStart
    (fun call h => h.call call) (fun call h => stdin_accepts_iff h call)
    stdinStart_sound calls

/-- As long as it is one, what was read and what is pending are characters
that came, in order. -/
theorem StdinInOrder.sublist {calls : List (StdinCall ν)}
    (h : StdinInOrder calls) :
    (taken (trace stdinCall stdinEvents stdinStart calls)
      ++ (stateAfter stdinCall stdinStart calls).pending).Sublist
        (offered (trace stdinCall stdinEvents stdinStart calls)) := by
  obtain ⟨kept, hsub, heq, -⟩ := fifo_conserves h (Nat.zero_le _)
  rw [List.nil_append] at heq
  rw [← heq]
  exact hsub

/-- Characters that nobody reads wait in the buffer. -/
theorem pending_writes (h : s.Sound) {cs : List UInt8}
    (hcs : ∀ c ∈ cs, c ≠ 0)
    (hfit : s.pending.length + cs.length ≤ stdinBufsize) :
    (stateAfter stdinCall s (cs.map StdinCall.write)).Sound
      ∧ (stateAfter stdinCall s (cs.map StdinCall.write)).pending
        = s.pending ++ cs := by
  induction cs generalizing s with
  | nil => exact ⟨h, (List.append_nil _).symm⟩
  | cons c cs ih =>
      rw [List.length_cons] at hfit
      have hone := pending_write h (hcs c List.mem_cons_self) (by omega)
      have hlen : (devStdinWrite s c).pending.length + cs.length
          ≤ stdinBufsize := by
        rw [hone, List.length_append, List.length_singleton]
        omega
      obtain ⟨hsound, hrest⟩ := ih (h.write c)
        (fun d hd => hcs d (List.mem_cons_of_mem c hd)) hlen
      refine ⟨hsound, ?_⟩
      show (stateAfter stdinCall (devStdinWrite s c)
        (cs.map StdinCall.write)).pending = _
      rw [hrest, hone, List.append_assoc]
      rfl

/-- A buffer full of one character, and another one comes. -/
theorem stdin_inOrder_full :
    ¬ ∀ pre, pre <+: (List.replicate stdinBufsize 97).map
        (StdinCall.write (ν := Nat)) ++ [.write 98] → StdinInOrder pre := by
  intro hall
  have hbefore := hall _ (List.prefix_append _ [StdinCall.write 98])
  have hafter := hall _ (List.prefix_refl _)
  obtain ⟨hsound, hpending⟩ := @pending_writes Nat _ _ stdinStart_sound
    (List.replicate stdinBufsize 97)
    (by intro c hc; rw [List.eq_of_mem_replicate hc]; decide)
    (by rw [List.length_replicate]; exact Nat.le_refl _)
  unfold StdinInOrder at hbefore hafter
  rw [trace_concat, accepts_append, hbefore, stateAfter_concat,
    Option.bind_some] at hafter
  have hharmless := (stdin_accepts_iff hsound _).1 hafter
  unfold Harmless at hharmless
  rw [hpending] at hharmless
  have hlen : ((stdinStart : Stdin Nat).pending
      ++ List.replicate stdinBufsize 97).length = stdinBufsize :=
    List.length_replicate
  have hhead := hharmless (by decide) hlen
  have hfirst : ((stdinStart : Stdin Nat).pending
      ++ List.replicate stdinBufsize 97).head? = some 97 := rfl
  rw [hfirst] at hhead
  exact absurd hhead (by decide)

end Calls

end Ucore.Vfs
