/-
The console buffer is empty when its two positions are equal, so it is also
empty after `CONSBUFSIZE` characters that nobody fetched. Up to one character
less it is a queue.
-/
import Ucore.Driver.Console

namespace Ucore.Driver

variable {cons : Cons} {c : UInt8} {chars port : List UInt8}

/-- Both positions are in the buffer, and no zero is among the characters. -/
structure Cons.Sound (cons : Cons) : Prop where
  rpos : cons.rpos < consbufsize
  wpos : cons.wpos < consbufsize
  noZero : ∀ c ∈ cons.unread, c ≠ 0

theorem length_unread (cons : Cons) : cons.unread.length = cons.count :=
  length_window

theorem count_lt (cons : Cons) : cons.count < consbufsize :=
  Nat.mod_lt _ (by decide)

theorem consStart_unread : consStart.unread = [] := rfl

-- ========================================================= cons_intr

/-- A character is stored behind the others. -/
theorem consPut_eq (hw : cons.wpos < consbufsize) (hc : c ≠ 0) :
    consPut cons c = { cons with
      buf := Function.update cons.buf cons.wpos c
      wpos := (cons.wpos + 1) % consbufsize } := by
  unfold consPut
  rw [if_pos hc]
  dsimp only
  unfold consbufsize at *
  split
  case isTrue hend => rw [hend]
  case isFalse hend => rw [Nat.mod_eq_of_lt (by omega)]

theorem consPut_count (hr : cons.rpos < consbufsize)
    (hw : cons.wpos < consbufsize) (hc : c ≠ 0) :
    (consPut cons c).count = (cons.count + 1) % consbufsize := by
  rw [consPut_eq hw hc]
  unfold Cons.count consbufsize at *
  dsimp only
  omega

/-- It shows where there is room for one more after it. -/
theorem consPut_unread (hr : cons.rpos < consbufsize)
    (hw : cons.wpos < consbufsize) (hc : c ≠ 0)
    (hroom : cons.count + 1 < consbufsize) :
    (consPut cons c).unread = cons.unread ++ [c] := by
  have hplace : cons.wpos = (cons.rpos + cons.count) % consbufsize := by
    unfold Cons.count consbufsize at *
    omega
  have hcount := consPut_count hr hw hc
  rw [Nat.mod_eq_of_lt hroom] at hcount
  unfold Cons.unread
  rw [hcount, consPut_eq hw hc]
  dsimp only
  rw [hplace]
  exact window_put (count_lt cons)

/-- Where there is none, every character is gone. -/
theorem consPut_full (hr : cons.rpos < consbufsize)
    (hw : cons.wpos < consbufsize) (hc : c ≠ 0)
    (hroom : ¬ cons.count + 1 < consbufsize) :
    (consPut cons c).unread = [] := by
  have hlt := count_lt cons
  have hcount := consPut_count hr hw hc
  have hlast : cons.count + 1 = consbufsize := by omega
  rw [hlast, Nat.mod_self] at hcount
  unfold Cons.unread
  rw [hcount]
  rfl

theorem Cons.Sound.put (h : cons.Sound) (c : UInt8) :
    (consPut cons c).Sound := by
  by_cases hc : c = 0
  · have hsame : consPut cons c = cons := by
      unfold consPut
      rw [if_neg (not_not_intro hc)]
    rwa [hsame]
  · constructor
    · rw [consPut_eq h.wpos hc]
      exact h.rpos
    · rw [consPut_eq h.wpos hc]
      exact Nat.mod_lt _ (by decide)
    · by_cases hroom : cons.count + 1 < consbufsize
      · rw [consPut_unread h.rpos h.wpos hc hroom]
        intro d hd
        rcases List.mem_append.1 hd with hd | hd
        · exact h.noZero d hd
        · rw [List.mem_singleton.1 hd]
          exact hc
      · rw [consPut_full h.rpos h.wpos hc hroom]
        simp

theorem Cons.Sound.intr (h : cons.Sound) (chars : List UInt8) :
    (consIntr cons chars).Sound := by
  induction chars generalizing cons with
  | nil => exact h
  | cons c chars ih => exact ih (h.put c)

theorem nonzero_cons (hc : c ≠ 0) :
    nonzero (c :: chars) = c :: nonzero chars :=
  List.filter_cons_of_pos (by simpa using hc)

/-- The characters of a burst other than zero come behind the others, where
they fit. -/
theorem Cons.Sound.intr_unread (h : cons.Sound)
    (hfit : cons.count + (nonzero chars).length < consbufsize) :
    (consIntr cons chars).unread = cons.unread ++ nonzero chars := by
  induction chars generalizing cons with
  | nil => exact (List.append_nil _).symm
  | cons c chars ih =>
      show (consIntr (consPut cons c) chars).unread = _
      by_cases hc : c = 0
      · have hsame : consPut cons c = cons := by
          unfold consPut
          rw [if_neg (not_not_intro hc)]
        rw [hsame, hc]
        rw [hc] at hfit
        exact ih h hfit
      · rw [nonzero_cons hc, List.length_cons] at hfit
        have hone := consPut_unread h.rpos h.wpos hc (by omega)
        have hcount : (consPut cons c).count = cons.count + 1 := by
          rw [← length_unread, hone, List.length_append, length_unread,
            List.length_singleton]
        rw [ih (h.put c) (by omega), hone, nonzero_cons hc, List.append_assoc]
        rfl

-- ========================================================= cons_getc

/-- What is fetched is the first of the characters that are unread. -/
theorem consGetc_spec (h : cons.Sound) :
    (consGetc cons port).2.Sound
      ∧ nonzero [(consGetc cons port).1] ++ (consGetc cons port).2.unread
        = (serialIntr cons port).unread
      ∧ ((consGetc cons port).2.unread.length + 1
          = (serialIntr cons port).unread.length
        ∨ (consGetc cons port).2.unread = []) := by
  have hs : (serialIntr cons port).Sound := h.intr _
  unfold consGetc
  dsimp only
  generalize serialIntr cons port = cons at hs
  by_cases hempty : cons.rpos = cons.wpos
  · rw [if_neg (not_not_intro hempty)]
    have hnone : cons.unread = [] := by
      have hcount : cons.count = 0 := by
        unfold Cons.count
        rw [hempty, Nat.add_sub_cancel_left, Nat.mod_self]
      unfold Cons.unread
      rw [hcount]
      rfl
    refine ⟨hs, ?_, .inr hnone⟩
    rw [hnone]
    rfl
  · rw [if_pos hempty]
    have hr := hs.rpos
    have hw := hs.wpos
    have hnext : (if cons.rpos + 1 = consbufsize
        then (cons.buf cons.rpos, { cons with rpos := 0 })
        else (cons.buf cons.rpos, { cons with rpos := cons.rpos + 1 }))
        = (cons.buf cons.rpos,
          { cons with rpos := (cons.rpos + 1) % consbufsize }) := by
      unfold consbufsize at *
      split
      case isTrue hend => rw [hend]
      case isFalse hend => rw [Nat.mod_eq_of_lt (by omega)]
    rw [hnext]
    have hcount : cons.count
        = Cons.count { cons with rpos := (cons.rpos + 1) % consbufsize } + 1 := by
      unfold Cons.count consbufsize at *
      dsimp only
      omega
    have hsplit : cons.unread = cons.buf cons.rpos
        :: Cons.unread { cons with rpos := (cons.rpos + 1) % consbufsize } := by
      unfold Cons.unread
      rw [hcount, window_cons, Nat.mod_eq_of_lt hr]
      dsimp only
      rw [window_mod]
    have hnz : cons.buf cons.rpos ≠ 0 := by
      apply hs.noZero
      rw [hsplit]
      exact List.mem_cons_self
    refine ⟨⟨Nat.mod_lt _ (by decide), hw, ?_⟩, ?_, .inl ?_⟩
    · intro d hd
      apply hs.noZero
      rw [hsplit]
      exact List.mem_cons_of_mem _ hd
    · rw [nonzero_cons hnz, hsplit]
      rfl
    · rw [hsplit]
      rfl

-- ============================================================ a call

theorem Cons.Sound.call (h : cons.Sound) (call : ConsCall) :
    (consCall cons call).2.Sound := by
  cases call with
  | intr chars => exact h.intr chars
  | getc port => exact (consGetc_spec h).1

/-- The queue after what a call feeds and fetches. -/
theorem accepts_call (call : ConsCall) {q : List UInt8} :
    accepts (fifo consbufsize) cons.unread
        (consEvents call (consCall cons call).1) = some q
      ↔ cons.unread ++ call.fed.take (consbufsize - cons.count)
        = nonzero (consCall cons call).1.toList ++ q := by
  have hle : cons.unread.length ≤ consbufsize := by
    rw [length_unread]
    exact Nat.le_of_lt (count_lt cons)
  unfold consEvents
  rw [accepts_append, accepts_puts hle, length_unread, Option.bind_some]
  exact accepts_takes

/-- A call keeps the order exactly if what it feeds leaves a place of the
buffer free. -/
theorem accepts_call_iff (h : cons.Sound) (call : ConsCall) :
    accepts (fifo consbufsize) cons.unread
        (consEvents call (consCall cons call).1)
          = some (consCall cons call).2.unread
      ↔ cons.unread.length + call.fed.length < consbufsize := by
  have hlt := count_lt cons
  rw [accepts_call, length_unread]
  constructor
  · intro heq
    by_contra hover
    -- the queue is full, but the buffer never is
    have hlen := congrArg List.length heq
    rw [List.length_append, List.length_append, List.length_take,
      length_unread] at hlen
    have hfull : cons.count + min (consbufsize - cons.count) call.fed.length
        = consbufsize := by omega
    rw [hfull] at hlen
    have hsmall := count_lt (consCall cons call).2
    cases call with
    | intr chars =>
        have hnone : nonzero (consCall cons (.intr chars)).1.toList = [] := rfl
        rw [hnone, List.length_nil, length_unread] at hlen
        omega
    | getc port =>
        have hone : (nonzero (consCall cons (.getc port)).1.toList).length
            ≤ 1 := List.length_filter_le _ _
        have hserial := count_lt (serialIntr cons port)
        rw [← length_unread] at hserial
        obtain ⟨-, -, hless | hnil⟩ := @consGetc_spec cons port h
        · change consbufsize = _ + (consGetc cons port).2.unread.length at hlen
          omega
        · change consbufsize = _ + (consGetc cons port).2.unread.length at hlen
          rw [hnil, List.length_nil] at hlen
          unfold consbufsize at *
          omega
  · intro hfit
    have hall : call.fed.take (consbufsize - cons.count) = call.fed :=
      List.take_of_length_le (by omega)
    rw [hall]
    cases call with
    | intr chars => exact (h.intr_unread hfit).symm
    | getc port =>
        obtain ⟨-, hfetch, -⟩ := @consGetc_spec cons port h
        have hburst := h.intr_unread hfit
        exact hburst.symm.trans hfetch.symm

theorem consStart_sound : consStart.Sound := by
  refine ⟨by decide, by decide, ?_⟩
  rw [consStart_unread]
  simp

-- ============================================================= a run

/-- The buffer is a queue at every time exactly if no character other than
zero comes when all places but one are taken. -/
theorem cons_inOrder (calls : List ConsCall) :
    (∀ pre, pre <+: calls → InOrder pre)
      ↔ ∀ pre call, pre ++ [call] <+: calls →
        (stateAfter consCall consStart pre).unread.length + call.fed.length
          < consbufsize :=
  @keeps_iff _ _ _ _ _ consCall consEvents (fifo consbufsize) Cons.unread
    Cons.Sound
    (fun cons call => cons.unread.length + call.fed.length < consbufsize)
    consStart (fun call h => h.call call)
    (fun call h => accepts_call_iff h call) consStart_sound calls

/-- As long as it is one, what was returned and what is unread are fed
characters in order. -/
theorem InOrder.sublist {calls : List ConsCall} (h : InOrder calls) :
    (taken (trace consCall consEvents consStart calls)
      ++ (stateAfter consCall consStart calls).unread).Sublist
        (offered (trace consCall consEvents consStart calls)) := by
  obtain ⟨kept, hsub, heq, -⟩ := fifo_conserves h (Nat.zero_le _)
  rw [List.nil_append] at heq
  rw [← heq]
  exact hsub

/-- A burst that fills the buffer is lost. -/
theorem cons_inOrder_burst :
    ¬ ∀ pre, pre <+: [ConsCall.intr (List.replicate consbufsize 97)] →
      InOrder pre := by
  intro hall
  have hburst := hall _ (List.prefix_refl _)
  have hevents : trace consCall consEvents consStart
      [.intr (List.replicate consbufsize 97)]
      = consEvents (.intr (List.replicate consbufsize 97))
          (consCall consStart (.intr (List.replicate consbufsize 97))).1 :=
    List.append_nil _
  unfold InOrder at hburst
  rw [hevents] at hburst
  have hfit := (accepts_call_iff consStart_sound _).1 hburst
  have hlen : (ConsCall.fed (.intr (List.replicate consbufsize 97))).length
      = consbufsize := by
    decide +kernel
  rw [hlen] at hfit
  omega

end Ucore.Driver
