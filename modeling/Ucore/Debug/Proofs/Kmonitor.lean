/-
What `parse` makes of a line: if the line has no more words than `argv` has
entries, it finds them all, and otherwise it stores behind the array
(`parse_outcome`). The message of too many arguments comes with the last
entry and stops nothing.

The scan has come to a position of the line. Behind it, whitespace is
overwritten, and the words that start there are in `argv`; inside of a word
this is one more (`Scanned`). A round goes on by one position, or from one
inner loop to the other, which it does not do twice at one position
(`toGo`).
-/
import Ucore.Debug.Kmonitor
import Ucore.Libs.Proofs.String
import Mathlib.Tactic.ByContra

namespace Ucore.Kmonitor

open Loop (Round)
open Runs

variable {mem : Nat → UInt8} {a i j x : Nat} {line : List UInt8} {st : Parse}

-- ========================================================== the line

/-- The line as `parse` leaves it. -/
def cut (line : List UInt8) (i : Nat) : UInt8 :=
  if line.getD i 0 ∈ whitespace then 0 else line.getD i 0

theorem not_inWord_end (h : line.length ≤ i) : ¬ InWord line i := fun hin =>
  absurd hin.1 (Nat.not_lt.mpr h)

/-- A word, once what ends it is overwritten. -/
theorem stringAt_word (h : StringAt mem a line) (hrun : MaxRun (InWord line) i j)
    (hj : j ≤ line.length) :
    StringAt (rewritten mem a (cut line) line.length) (a + i) (line.extract i j) := by
  have hlen := length_extract (i := i) hj
  have hlt := hrun.lt
  refine ⟨fun hmem => h.nul (mem_of_mem_extract hmem), fun k hk => ?_⟩
  rw [hlen] at hk
  rw [Nat.add_assoc]
  rcases Nat.lt_or_eq_of_le hk with hin | rfl
  · have hword := hrun.within (i + k) (Nat.le_add_right i k) (by omega)
    rw [rewritten_behind hword.1, getD_extract hj hin, cut, if_neg hword.2]
  · rw [List.getD_eq_default _ _ (Nat.le_of_eq hlen), Nat.add_sub_cancel' (by omega)]
    rcases Nat.lt_or_eq_of_le hj with hin | rfl
    · have hwhite : line.getD j 0 ∈ whitespace := by
        by_contra hnot
        exact hrun.ends ⟨hin, hnot⟩
      rw [rewritten_behind hin, cut, if_pos hwhite]
    · rw [rewritten_ahead (Nat.le_refl _), h.reads _ (Nat.le_refl _),
        List.getD_eq_default _ _ (Nat.le_refl _)]

-- ========================================================== the scan

/-- The entries for the words that start before `x`. -/
def found (line : List UInt8) (a x : Nat) : List Nat :=
  (positions (Starts (InWord line)) x).map (a + ·)

/-- The scan has come to position `x`. In a word, the word that it is at is
found. -/
structure Scanned (mem : Nat → UInt8) (a : Nat) (line : List UInt8) (st : Parse)
    (x : Nat) : Prop where
  le : x ≤ line.length
  buf : st.buf = a + x
  mem : st.mem = rewritten mem a (cut line) x
  blanks : st.place = .blanks →
    st.argv = found line a x ∧ (InWord line x → Starts (InWord line) x)
  word : st.place = .word → st.argv = found line a (x + 1)
  count : st.argv.length ≤ maxargs

/-- What `parse` comes to, over all. -/
def Outcome (mem : Nat → UInt8) (a : Nat) (line : List UInt8) : Parsed → Prop
  | .returned argv mem' _ =>
      argv = (wordStarts line).map (a + ·) ∧ (wordStarts line).length ≤ maxargs
        ∧ mem' = rewritten mem a (cut line) line.length
  | .outside => maxargs < (wordStarts line).length

/-- The rounds that are left, at most. -/
def toGo (a : Nat) (line : List UInt8) (st : Parse) : Nat :=
  2 * (line.length - (st.buf - a))
    + if (st.place = .blanks ↔ InWord line (st.buf - a)) then 1 else 0

theorem found_length (line : List UInt8) (a x : Nat) :
    (found line a x).length = (positions (Starts (InWord line)) x).length :=
  List.length_map _

theorem Scanned.char (h : Scanned mem a line st x) (hline : StringAt mem a line) :
    st.mem st.buf = line.getD x 0 := by
  rw [h.mem, h.buf, rewritten_ahead (Nat.le_refl x), hline.reads x h.le]

/-- The test of the loop over an argument. -/
theorem Scanned.inWord_iff (h : Scanned mem a line st x)
    (hline : StringAt mem a line) :
    st.mem st.buf ≠ 0 ∧ strchr whitespace (st.mem st.buf) = none
      ↔ InWord line x := by
  rw [strchr_eq_none, h.char hline, InWord]
  refine and_congr_left fun _ => ⟨fun hne => ?_, hline.ne_nul⟩
  by_contra hnot
  exact hne (List.getD_eq_default _ _ (Nat.le_of_not_lt hnot))

/-- The test of the loop over whitespace. -/
theorem Scanned.white_iff (h : Scanned mem a line st x)
    (hline : StringAt mem a line) :
    st.mem st.buf ≠ 0 ∧ strchr whitespace (st.mem st.buf) ≠ none
      ↔ x < line.length ∧ line.getD x 0 ∈ whitespace := by
  rw [Ne, Ne, strchr_eq_none, not_not, h.char hline]
  refine and_congr_left fun _ => ⟨fun hne => ?_, hline.ne_nul⟩
  by_contra hnot
  exact hne (List.getD_eq_default _ _ (Nat.le_of_not_lt hnot))

/-- One character of whitespace. -/
theorem Scanned.white (h : Scanned mem a line st x) (hplace : st.place = .blanks)
    (hin : x < line.length) (hwhite : line.getD x 0 ∈ whitespace) :
    Scanned mem a line
      { st with mem := Function.update st.mem st.buf 0, buf := st.buf + 1 } (x + 1) := by
  have hnot : ¬ InWord line x := fun hword => hword.2 hwhite
  obtain ⟨hargv, -⟩ := h.blanks hplace
  refine ⟨hin, by rw [h.buf, Nat.add_assoc], ?_, fun _ => ⟨?_, starts_succ hnot⟩,
    fun hword => ?_, h.count⟩
  · show Function.update st.mem st.buf 0 = _
    have hcut : cut line x = 0 := if_pos hwhite
    rw [h.mem, h.buf, ← hcut, rewritten_store]
  · rw [hargv, found, found, positions_skip fun hstarts => hnot hstarts.1]
  · exact absurd (hplace.symm.trans hword) (by decide)

/-- An argument begins. -/
theorem Scanned.enter (h : Scanned mem a line st x) (hplace : st.place = .blanks)
    (hword : InWord line x) (hroom : st.argv.length < maxargs)
    (printed : List String) :
    Scanned mem a line
      { st with argv := st.argv ++ [st.buf], printed, place := .word } x := by
  obtain ⟨hargv, hstarts⟩ := h.blanks hplace
  refine ⟨h.le, h.buf, h.mem, (fun h => by cases h), fun _ => ?_, ?_⟩
  · show st.argv ++ [st.buf] = _
    rw [found, positions_succ (hstarts hword), List.map_append, hargv, h.buf]
    rfl
  · show (st.argv ++ [st.buf]).length ≤ maxargs
    rw [List.length_append]
    exact hroom

/-- One character of an argument. -/
theorem Scanned.next (h : Scanned mem a line st x) (hline : StringAt mem a line)
    (hplace : st.place = .word) (hword : InWord line x) :
    Scanned mem a line { st with buf := st.buf + 1 } (x + 1) := by
  have hstays : cut line x = mem (a + x) := by
    rw [cut, if_neg hword.2, hline.reads x h.le]
  refine ⟨hword.1, by rw [h.buf, Nat.add_assoc], ?_, fun hblanks => ?_, fun _ => ?_,
    h.count⟩
  · exact h.mem.trans (rewritten_pass hstays)
  · exact absurd (hplace.symm.trans hblanks) (by decide)
  · show st.argv = _
    rw [h.word hplace, found, found, positions_skip (Starts.not_succ hword)]

/-- An argument ends. -/
theorem Scanned.leave (h : Scanned mem a line st x) (hplace : st.place = .word)
    (hnot : ¬ InWord line x) :
    Scanned mem a line { st with place := .blanks } x := by
  refine ⟨h.le, h.buf, h.mem, fun _ => ⟨?_, fun hword => absurd hword hnot⟩,
    (fun h => by cases h),
    h.count⟩
  show st.argv = _
  rw [h.word hplace, found, found, positions_skip fun hstarts => hnot hstarts.1]

/-- The line is over. -/
theorem Scanned.ended (h : Scanned mem a line st x) (hline : StringAt mem a line)
    (hplace : st.place = .blanks) (hend : st.mem st.buf = 0) :
    Outcome mem a line (.returned st.argv st.mem st.printed) := by
  have hx : x = line.length := by
    rw [h.char hline, ← hline.reads x h.le] at hend
    exact (hline.read_eq_zero h.le).mp hend
  subst hx
  obtain ⟨hargv, -⟩ := h.blanks hplace
  refine ⟨hargv, ?_, h.mem⟩
  have hcount := h.count
  rw [hargv, found_length] at hcount
  exact hcount

/-- There is no entry left for a word. -/
theorem Scanned.overflow (h : Scanned mem a line st x) (hplace : st.place = .blanks)
    (hword : InWord line x) (hroom : ¬ st.argv.length < maxargs) :
    Outcome mem a line .outside := by
  obtain ⟨hargv, hstarts⟩ := h.blanks hplace
  have hmore : (positions (Starts (InWord line)) (x + 1)).length
      ≤ (wordStarts line).length := positions_length_le hword.1
  rw [positions_succ (hstarts hword), List.length_append, List.length_singleton] at hmore
  rw [hargv, found_length] at hroom
  show maxargs < (wordStarts line).length
  omega

-- ======================================================== the rounds

theorem Scanned.toGo_eq (h : Scanned mem a line st x) :
    toGo a line st = 2 * (line.length - x)
      + if (st.place = .blanks ↔ InWord line x) then 1 else 0 := by
  rw [toGo, h.buf, Nat.add_sub_cancel_left]

/-- To go on by one position is to have less to go. -/
theorem toGo_next {st' : Parse} (h : Scanned mem a line st x)
    (h' : Scanned mem a line st' (x + 1)) : toGo a line st' < toGo a line st := by
  rw [h.toGo_eq, h'.toGo_eq]
  have hle := h'.le
  split <;> omega

/-- To go on from the other inner loop too. -/
theorem toGo_here {st' : Parse} (h : Scanned mem a line st x)
    (h' : Scanned mem a line st' x) (hdue : st.place = .blanks ↔ InWord line x)
    (hdone : ¬ (st'.place = .blanks ↔ InWord line x)) :
    toGo a line st' < toGo a line st := by
  rw [h.toGo_eq, h'.toGo_eq, if_pos hdue, if_neg hdone]
  exact Nat.lt_succ_self _

/-- A round goes on, with less to go, or `parse` comes to an end. -/
theorem round_scanned (hline : StringAt mem a line) (st : Parse)
    (h : ∃ x, Scanned mem a line st x) :
    (∃ st', round st = .again st' ∧ (∃ x, Scanned mem a line st' x)
        ∧ toGo a line st' < toGo a line st)
      ∨ ∃ r, round st = .stop r ∧ Outcome mem a line r := by
  obtain ⟨x, h⟩ := h
  cases hplace : st.place with
  | blanks =>
      by_cases hwhite : x < line.length ∧ line.getD x 0 ∈ whitespace
      · have hnext := h.white hplace hwhite.1 hwhite.2
        refine .inl ⟨_, ?_, ⟨x + 1, hnext⟩, toGo_next h hnext⟩
        simp only [round, hplace]
        exact if_pos ((h.white_iff hline).mpr hwhite)
      · have htest := mt (h.white_iff hline).mp hwhite
        by_cases hend : st.mem st.buf = 0
        · refine .inr ⟨_, ?_, h.ended hline hplace hend⟩
          simp only [round, hplace]
          exact (if_neg htest).trans (if_pos hend)
        · have hin : x < line.length := by
            by_contra hnot
            rw [h.char hline] at hend
            exact hend (List.getD_eq_default _ _ (Nat.le_of_not_lt hnot))
          have hword : InWord line x := ⟨hin, fun hmem => hwhite ⟨hin, hmem⟩⟩
          by_cases hroom : st.argv.length < maxargs
          · have henter := h.enter hplace hword hroom
              (if st.argv.length = maxargs - 1 then st.printed ++ [tooMany]
                else st.printed)
            refine .inl ⟨_, ?_, ⟨x, henter⟩,
              toGo_here h henter (iff_of_true hplace hword) fun hiff =>
                by cases hiff.mpr hword⟩
            simp only [round, hplace]
            exact (if_neg htest).trans ((if_neg hend).trans (if_pos hroom))
          · refine .inr ⟨_, ?_, h.overflow hplace hword hroom⟩
            simp only [round, hplace]
            exact (if_neg htest).trans ((if_neg hend).trans (if_neg hroom))
  | word =>
      by_cases hword : InWord line x
      · have hnext := h.next hline hplace hword
        refine .inl ⟨_, ?_, ⟨x + 1, hnext⟩, toGo_next h hnext⟩
        simp only [round, hplace]
        exact if_pos ((h.inWord_iff hline).mpr hword)
      · have hleave := h.leave hplace hword
        have hdue : st.place = .blanks ↔ InWord line x :=
          iff_of_false (by rw [hplace]; decide) hword
        refine .inl ⟨_, ?_, ⟨x, hleave⟩,
          toGo_here h hleave hdue fun hiff => hword (hiff.mp rfl)⟩
        simp only [round, hplace]
        exact if_neg (mt (h.inWord_iff hline).mp hword)

/-- `parse` comes to an end on every line. -/
theorem parse_outcome (hline : StringAt mem a line) :
    ∃ rounds r, parse rounds mem a = some r ∧ Outcome mem a line r := by
  refine Loop.returns_of_measure (toGo a line) (round_scanned hline)
    ⟨0, Nat.zero_le _, rfl, (rewritten_zero mem a _).symm, fun _ => ⟨rfl, fun hword => ?_⟩,
      (fun h => by cases h), Nat.zero_le _⟩
  exact ⟨hword, .inl rfl⟩

/-- The number of rounds makes no difference. -/
theorem parse_unique {rounds rounds' : Nat} {r r' : Parsed}
    (h : parse rounds mem a = some r) (h' : parse rounds' mem a = some r') : r = r' := by
  obtain ⟨st, hreach, hstop⟩ := Loop.reaches_of_run h
  obtain ⟨st', hreach', hstop'⟩ := Loop.reaches_of_run h'
  exact hreach.stop_unique hstop hreach' hstop'

/-- What `parse` returns is all the words, and there are entries for them. -/
theorem parse_returned (hline : StringAt mem a line) {rounds : Nat} {argv : List Nat}
    {mem' : Nat → UInt8} {printed : List String}
    (h : parse rounds mem a = some (.returned argv mem' printed)) :
    argv = (wordStarts line).map (a + ·) ∧ (wordStarts line).length ≤ maxargs
      ∧ mem' = rewritten mem a (cut line) line.length := by
  obtain ⟨rounds', r, hr, hout⟩ := parse_outcome hline
  obtain rfl := parse_unique hr h
  exact hout

/-- A line whose words have entries. -/
theorem parse_all (hline : StringAt mem a line)
    (hfew : (wordStarts line).length ≤ maxargs) :
    ∃ rounds printed, parse rounds mem a = some (.returned
      ((wordStarts line).map (a + ·)) (rewritten mem a (cut line) line.length)
      printed) := by
  obtain ⟨rounds, r, hr, hout⟩ := parse_outcome hline
  cases r with
  | outside => exact absurd hfew (Nat.not_le.mpr hout)
  | returned argv mem' printed =>
      obtain ⟨rfl, -, rfl⟩ := hout
      exact ⟨rounds, printed, hr⟩

/-- The words are cut out of the line. -/
theorem words_cut (hline : StringAt mem a line) (hi : i ∈ wordStarts line) :
    ∃ j, MaxRun (InWord line) i j
      ∧ StringAt (rewritten mem a (cut line) line.length) (a + i)
          (line.extract i j) := by
  obtain ⟨j, hrun, hj⟩ := exists_run (mem_positions.mp hi).2
    fun k hk => not_inWord_end hk
  exact ⟨j, hrun, stringAt_word hline hrun hj⟩

-- ======================================================== the result

/-- `parse` returns the words of a line, within `argv`, exactly if there are
at most `MAXARGS`. -/
theorem parsesWithin_iff (hline : StringAt mem a line) :
    ParsesWithin mem a line ↔ (wordStarts line).length ≤ maxargs := by
  constructor
  · intro hparses
    obtain ⟨rounds, argv, mem', printed, hr, -, -⟩ := hparses
    exact (parse_returned hline hr).2.1
  · intro hfew
    obtain ⟨rounds, printed, hr⟩ := parse_all hline hfew
    have hlen : ((wordStarts line).map (a + ·)).length = (wordStarts line).length :=
      List.length_map _
    refine ⟨rounds, _, _, printed, hr, hlen.trans_le hfew, ?_, fun i hi => ?_⟩
    · rw [hlen, List.take_length]
    · rw [hlen, List.take_length] at hi
      exact words_cut hline hi

/-- `"help me\n"`. -/
def helpLine : List UInt8 := [104, 101, 108, 112, 32, 109, 101, 10]

theorem parsesWithin_iff_help :
    StringAt (memoryOf helpLine) 0 helpLine
      ∧ (ParsesWithin (memoryOf helpLine) 0 helpLine
        ↔ (wordStarts helpLine).length ≤ maxargs) :=
  have hline : StringAt (memoryOf helpLine) 0 helpLine :=
    stringAt_memoryOf (by decide)
  ⟨hline, parsesWithin_iff hline⟩

/-- 17 words of one letter. -/
def crowdedLine : List UInt8 := (List.replicate 17 [97, 32]).flatten

/-- The last word has no entry. -/
theorem parsesWithin_crowded :
    StringAt (memoryOf crowdedLine) 0 crowdedLine
      ∧ ¬ ParsesWithin (memoryOf crowdedLine) 0 crowdedLine := by
  have hline : StringAt (memoryOf crowdedLine) 0 crowdedLine :=
    stringAt_memoryOf (by decide)
  refine ⟨hline, fun hparses => ?_⟩
  obtain ⟨rounds, argv, mem', printed, hr, -, -⟩ := hparses
  have hfew := (parse_returned hline hr).2.1
  have hmany : (wordStarts crowdedLine).length = 17 := by decide
  rw [hmany] at hfew
  exact absurd hfew (by decide)

-- ====================================================== the commands

theorem commands_nul : ∀ command ∈ commands, (0 : UInt8) ∉ command.1 := by decide

/-- The command that `runcmd` finds is the one with the name of the first word. -/
theorem find_command {mem' : Nat → UInt8} {p : Nat} {word : List UInt8}
    (h : StringAt mem' p word) :
    (commands.find? fun command => strcmp mem' command.1 p = 0)
      = commands.find? fun command => command.1 = word := by
  rw [← List.head?_filter, ← List.head?_filter]
  congr 1
  apply List.filter_congr
  intro command hmem
  rw [decide_eq_decide, strcmp_eq_zero (commands_nul command hmem)]
  constructor
  · intro hname
    exact hname.unique h
  · intro heq
    rw [heq]
    exact h

/-- A line whose words have entries runs the command of its first word, with
the other words as arguments. -/
theorem runcmd_named {starts : List Nat} (hline : StringAt mem a line)
    (hfew : (wordStarts line).length ≤ maxargs)
    (hwords : wordStarts line = i :: starts) (hrun : MaxRun (InWord line) i j) :
    ∃ rounds, runcmd rounds mem a = some
      (invoke (rewritten mem a (cut line) line.length) (a + i) (starts.map (a + ·))
        (commands.find? fun command => command.1 = line.extract i j)) := by
  obtain ⟨rounds, printed, hr⟩ := parse_all hline hfew
  have hfirst : i ∈ wordStarts line := hwords ▸ List.mem_cons_self
  obtain ⟨j', hrun', hword⟩ := words_cut hline hfirst
  obtain rfl := hrun.unique hrun'
  rw [hwords, List.map_cons] at hr
  refine ⟨rounds, ?_⟩
  rw [runcmd, hr, Option.map_some]
  exact congrArg (fun found => some (invoke _ _ _ found)) (find_command hword)

theorem runcmd_named_help : ∃ rounds mem,
    runcmd rounds (memoryOf helpLine) 0 = some (.invoked .monHelp [5] mem) := by
  have hwords : wordStarts helpLine = 0 :: [5] := by decide
  have hword : MaxRun (InWord helpLine) 0 4 :=
    ⟨by decide, by decide, by decide, by decide⟩
  obtain ⟨rounds, hrun⟩ := runcmd_named (stringAt_memoryOf (by decide)) (by decide)
    hwords hword
  exact ⟨rounds, _, hrun⟩

end Ucore.Kmonitor
