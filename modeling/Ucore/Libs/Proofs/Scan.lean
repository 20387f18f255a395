/-
How `vprintfmt` scans a format. From one place in the plain text it comes to
a later one: past a character, past a conversion, or past an escape that no
label knows, which it puts as it stands. An escape that is unknown is read
twice: up to the character that is no flag, and again as plain text from
behind the percent sign. It is at its end there if that character is the NUL,
which is read twice too.
-/
import Ucore.Libs.Printfmt
import Mathlib.Data.List.Induction
import Mathlib.Algebra.Group.Nat.Defs

namespace Ucore.Printfmt

open Loop

variable {s pre post flags : List UInt8} {args : Args} {st : Scan} {e : Escape}
  {c ch : UInt8} {ap : Nat} {out : List UInt8}

-- ============================================================= reads

/-- A character of the format. -/
theorem byteAt_cons (pre : List UInt8) (c : UInt8) (post : List UInt8) :
    byteAt (pre ++ c :: post) pre.length = some c := by
  unfold byteAt
  rw [if_pos (by omega), Int.toNat_natCast, List.append_assoc,
    List.getElem?_append_right (Nat.le_refl _), Nat.sub_self]
  rfl

/-- The NUL after it. -/
theorem byteAt_end (s : List UInt8) : byteAt s s.length = some 0 := by
  unfold byteAt
  rw [if_pos (by omega), Int.toNat_natCast,
    List.getElem?_append_right (Nat.le_refl _), Nat.sub_self]
  rfl

/-- What is read behind the start of the format. -/
theorem byteAt_split (pre post : List UInt8) :
    byteAt (pre ++ post) pre.length = some (charAt post) := by
  cases post with
  | nil =>
      rw [List.append_nil]
      exact byteAt_end pre
  | cons c post => exact byteAt_cons pre c post

theorem reading_of {next : UInt8 → Round Scan (Option (List UInt8))} {i : Int}
    (h : byteAt s i = some c) : reading s i next = next c := by
  unfold reading
  rw [h]

-- ============================================================ labels

theorem labelOf_percent : labelOf '%'.toUInt8 = .percent := by decide

theorem labelOf_nul : labelOf 0 = .default := by decide

theorem IsFlag.ne_percent (h : IsFlag ch) : ch ≠ '%'.toUInt8 := by
  intro heq
  rw [heq] at h
  exact absurd h (by decide)

theorem IsFlag.ne_nul (h : IsFlag ch) : ch ≠ 0 := by
  intro heq
  rw [heq] at h
  exact absurd h (by decide)

/-- A digit. -/
def IsDigit (c : UInt8) : Prop := ¬ (c < '0'.toUInt8 ∨ '9'.toUInt8 < c)

instance (c : UInt8) : Decidable (IsDigit c) :=
  inferInstanceAs (Decidable (¬ _))

/-- The digits are flags. -/
theorem IsDigit.flag (h : IsDigit ch) : IsFlag ch := by
  have hall : ∀ i : Fin 256, IsDigit (UInt8.ofFin i) → IsFlag (UInt8.ofFin i) := by
    decide +kernel
  exact hall ch.toFin h

/-- The label of an argument is that of the star only. -/
theorem labelOf_star : labelOf ch = .star ↔ ch = '*'.toUInt8 := by
  have hall : ∀ i : Fin 256, labelOf (UInt8.ofFin i) = .star
      ↔ UInt8.ofFin i = '*'.toUInt8 := by
    decide +kernel
  exact hall ch.toFin

-- ======================================================== the rounds

theorem behind_next (pre : List UInt8) (c : UInt8) (place : Place) (ap : Nat)
    (out : List UInt8) :
    { behind pre place ap out with fmt := (pre.length : Int) + 1 }
      = behind (pre ++ [c]) place ap out := by
  unfold behind
  rw [List.length_append]
  rfl

theorem round_plain (h : s = pre ++ c :: post) (hpercent : c ≠ '%'.toUInt8)
    (hnul : c ≠ 0) :
    round s args (behind pre .text ap out)
      = .again (behind (pre ++ [c]) .text ap (out ++ [c])) := by
  have hread : byteAt s pre.length = some c := h ▸ byteAt_cons pre c post
  show reading s (pre.length : Int) _ = _
  rw [reading_of hread, if_pos hpercent, if_neg hnul, ← behind_next]
  rfl

theorem round_percent (h : s = pre ++ '%'.toUInt8 :: post) :
    round s args (behind pre .text ap out)
      = .again (behind (pre ++ ['%'.toUInt8]) (.reswitch .init) ap out) := by
  have hread : byteAt s pre.length = some '%'.toUInt8 :=
    h ▸ byteAt_cons pre _ post
  show reading s (pre.length : Int) _ = _
  rw [reading_of hread, if_neg (not_not_intro rfl), ← behind_next]
  rfl

theorem round_end : round s args (behind s .text ap out) = .stop (some out) := by
  show reading s (s.length : Int) _ = _
  rw [reading_of (byteAt_end s), if_pos (by decide), if_pos rfl]
  rfl

theorem round_reswitch (h : s = pre ++ post) :
    round s args (behind pre (.reswitch e) ap out)
      = .again (Scan.switch args
        { behind pre (.reswitch e) ap out with fmt := (pre.length : Int) + 1 }
        e (charAt post)) := by
  have hread : byteAt s pre.length = some (charAt post) :=
    h ▸ byteAt_split pre post
  show reading s (pre.length : Int) _ = _
  rw [reading_of hread]
  rfl

/-- The width after one more digit. -/
def Escape.addDigit (e : Escape) (ch : UInt8) : Escape :=
  { e with
    precision := e.precision * 10 + ch.toBitVec.setWidth 32
      - '0'.toUInt8.toBitVec.setWidth 32 }

theorem round_digit (h : s = pre ++ c :: post) (hdigit : IsDigit c) :
    round s args (behind pre (.digits e ch) ap out)
      = .again (behind (pre ++ [c]) (.digits (e.addDigit ch) c) ap out) := by
  have hread : byteAt s pre.length = some c := h ▸ byteAt_cons pre c post
  show reading s (pre.length : Int) _ = _
  rw [reading_of hread, if_neg hdigit, ← behind_next]
  rfl

theorem round_noDigit (h : s = pre ++ post) (hdigit : ¬ IsDigit (charAt post)) :
    round s args (behind pre (.digits e ch) ap out)
      = .again (behind pre (.reswitch (e.addDigit ch).processPrecision) ap
        out) := by
  have hread : byteAt s pre.length = some (charAt post) :=
    h ▸ byteAt_split pre post
  show reading s (pre.length : Int) _ = _
  rw [reading_of hread, if_pos (not_not.1 hdigit)]
  rfl

theorem round_back (h : s = pre ++ c :: post) (hpercent : c ≠ '%'.toUInt8) :
    round s args (behind (pre ++ [c]) .back ap out)
      = .again (behind pre .back ap out) := by
  have hread : byteAt s pre.length = some c := h ▸ byteAt_cons pre c post
  have hlast : ((pre ++ [c]).length : Int) - 1 = pre.length := by
    rw [List.length_append, List.length_singleton]
    omega
  show reading s (((pre ++ [c]).length : Int) - 1) _ = _
  rw [hlast, reading_of hread, if_pos hpercent]
  show Round.again { behind (pre ++ [c]) .back ap out with
    fmt := ((pre ++ [c]).length : Int) - 1 } = _
  rw [hlast]
  rfl

theorem round_backPercent (h : s = pre ++ '%'.toUInt8 :: post) :
    round s args (behind (pre ++ ['%'.toUInt8]) .back ap out)
      = .again (behind (pre ++ ['%'.toUInt8]) .text ap out) := by
  have hread : byteAt s pre.length = some '%'.toUInt8 :=
    h ▸ byteAt_cons pre _ post
  have hlast : ((pre ++ ['%'.toUInt8]).length : Int) - 1 = pre.length := by
    rw [List.length_append, List.length_singleton]
    omega
  show reading s (((pre ++ ['%'.toUInt8]).length : Int) - 1) _ = _
  rw [hlast, reading_of hread, if_neg (not_not_intro rfl)]
  rfl

-- ======================================================== the switch

/-- Inside an escape. -/
def Place.InEscape (place : Place) : Prop :=
  (∃ e, place = .reswitch e) ∨ ∃ e ch, place = .digits e ch

/-- A flag goes on with the escape, at `reswitch` or among the digits. -/
theorem switch_flag (h : IsFlag ch) :
    ∃ place : Place, place.InEscape ∧ Scan.switch args st e ch
      = { st with place := place, ap := st.ap + [ch].count '*'.toUInt8 } := by
  have hcount : labelOf ch ≠ .star → [ch].count '*'.toUInt8 = 0 := by
    intro hne
    apply List.count_eq_zero_of_not_mem
    rw [List.mem_singleton]
    intro heq
    exact hne (labelOf_star.2 heq.symm)
  unfold IsFlag at h
  unfold Scan.switch
  cases hlabel : labelOf ch with
  | star =>
      have hone : [ch].count '*'.toUInt8 = 1 := by
        rw [labelOf_star.1 hlabel]
        rfl
      rw [hone]
      exact ⟨_, .inl ⟨_, rfl⟩, rfl⟩
  | digit =>
      rw [hcount (by rw [hlabel]; decide)]
      exact ⟨_, .inr ⟨_, _, rfl⟩, rfl⟩
  | minus | zero | dot | sharp | long =>
      rw [hcount (by rw [hlabel]; decide)]
      exact ⟨_, .inl ⟨_, rfl⟩, rfl⟩
  | char | error | string | decimal | unsigned | octal | pointer | hex | percent
  | default =>
      rw [hlabel] at h
      cases h

/-- A conversion leaves the switch. -/
theorem switch_conversion (hflag : ¬ IsFlag ch) (hknown : labelOf ch ≠ .default) :
    ∃ n put, Scan.switch args st e ch = st.leave n put := by
  unfold IsFlag at hflag
  unfold Scan.switch
  cases hlabel : labelOf ch with
  | minus | zero | digit | star | dot | sharp | long =>
      rw [hlabel] at hflag
      exact absurd rfl hflag
  | char | error | string | decimal | unsigned | octal | pointer | hex | percent =>
      exact ⟨_, _, rfl⟩
  | default => exact absurd hlabel hknown

/-- Where no label is, the scan turns back. -/
theorem round_default (h : s = pre ++ post)
    (hpost : labelOf (charAt post) = .default) :
    round s args (behind pre (.reswitch e) ap out)
      = .again (behind pre .back ap (out ++ ['%'.toUInt8])) := by
  have hback : ((pre.length : Int) + 1) - 1 = pre.length :=
    Int.add_sub_cancel _ _
  rw [round_reswitch h]
  unfold Scan.switch
  rw [hpost]
  dsimp only
  rw [hback]
  rfl

-- ========================================================= an escape

/-- The flags of an escape are read, and nothing is put. -/
theorem flags_run (hflags : ∀ f ∈ flags, IsFlag f)
    (hpost : ¬ IsDigit (charAt post)) (pre : List UInt8)
    (hs : s = pre ++ (flags ++ post)) (ap : Nat) (out : List UInt8)
    {place : Place} (hplace : place.InEscape) :
    ∃ e', Reaches (round s args) (behind pre place ap out)
      (behind (pre ++ flags) (.reswitch e') (ap + flags.count '*'.toUInt8)
        out) := by
  induction flags generalizing pre ap place with
  | nil =>
      rw [List.append_nil]
      obtain ⟨e, rfl⟩ | ⟨e, ch, rfl⟩ := hplace
      · exact ⟨e, .refl _⟩
      · exact ⟨_, .step (round_noDigit hs hpost) (.refl _)⟩
  | cons f flags ih =>
      have hflag : IsFlag f := hflags f List.mem_cons_self
      have hrest : ∀ f ∈ flags, IsFlag f := fun g hg =>
        hflags g (List.mem_cons_of_mem f hg)
      have hs' : s = (pre ++ [f]) ++ (flags ++ post) := by
        rw [hs, List.append_assoc]
        rfl
      have hend : pre ++ [f] ++ flags = pre ++ f :: flags := by
        rw [List.append_assoc]
        rfl
      have hcount : (f :: flags).count '*'.toUInt8
          = [f].count '*'.toUInt8 + flags.count '*'.toUInt8 := by
        rw [← List.count_append]
        rfl
      -- at `reswitch` the flag is the one that is read
      have hflagged : ∀ e, ∃ e', Reaches (round s args)
          (behind pre (.reswitch e) ap out)
          (behind (pre ++ f :: flags) (.reswitch e')
            (ap + (f :: flags).count '*'.toUInt8) out) := by
        intro e
        obtain ⟨place, hin, hswitch⟩ := @switch_flag args
          { behind pre (.reswitch e) ap out with fmt := (pre.length : Int) + 1 }
          e f hflag
        have hround := @round_reswitch s pre _ args e ap out hs
        rw [show charAt (f :: flags ++ post) = f from rfl, hswitch] at hround
        obtain ⟨e', hreach⟩ := ih hrest (pre ++ [f]) hs'
          (ap + [f].count '*'.toUInt8) hin
        rw [hend, Nat.add_assoc, ← hcount, ← behind_next] at hreach
        exact ⟨e', .step hround hreach⟩
      obtain ⟨e, rfl⟩ | ⟨e, ch, rfl⟩ := hplace
      · exact hflagged e
      · -- among digits another digit is one of them
        by_cases hdigit : IsDigit f
        · have hin : Place.InEscape (.digits (e.addDigit ch) f) :=
            .inr ⟨_, _, rfl⟩
          have hstar : [f].count '*'.toUInt8 = 0 := by
            apply List.count_eq_zero_of_not_mem
            rw [List.mem_singleton]
            intro heq
            rw [← heq] at hdigit
            exact absurd hdigit (by decide)
          obtain ⟨e', hreach⟩ := ih hrest (pre ++ [f]) hs' ap hin
          rw [hend] at hreach
          rw [hcount, hstar, Nat.zero_add]
          exact ⟨e', .step (round_digit hs hdigit) hreach⟩
        · obtain ⟨e', hreach⟩ := hflagged (e.addDigit ch).processPrecision
          exact ⟨e', .step (round_noDigit hs hdigit) hreach⟩

/-- The loop that goes back stops behind the percent sign. -/
theorem back_run (hflags : ∀ f ∈ flags, IsFlag f) (pre : List UInt8)
    (hs : s = pre ++ '%'.toUInt8 :: (flags ++ post)) (ap : Nat)
    (out : List UInt8) :
    Reaches (round s args)
      (behind (pre ++ '%'.toUInt8 :: flags) .back ap out)
      (behind (pre ++ ['%'.toUInt8]) .text ap out) := by
  induction flags using List.reverseRecOn generalizing post with
  | nil => exact .step (round_backPercent hs) (.refl _)
  | append_singleton flags f ih =>
      have hflag : IsFlag f := hflags f List.mem_concat_self
      have hrest : ∀ f ∈ flags, IsFlag f := fun g hg =>
        hflags g (List.mem_append_left [f] hg)
      have hs' : s = pre ++ '%'.toUInt8 :: (flags ++ f :: post) := by
        rw [hs, List.append_assoc]
        rfl
      have hlast : s = (pre ++ '%'.toUInt8 :: flags) ++ f :: post := by
        rw [hs', List.append_assoc]
        rfl
      have hround := @round_back s _ post args f ap out hlast hflag.ne_percent
      rw [List.append_assoc] at hround
      exact .step hround (ih hrest hs')

/-- Plain text is put as it stands. -/
theorem text_run {text : List UInt8}
    (htext : ∀ f ∈ text, f ≠ '%'.toUInt8 ∧ f ≠ 0) (pre : List UInt8)
    (hs : s = pre ++ (text ++ post)) (ap : Nat) (out : List UInt8) :
    Reaches (round s args) (behind pre .text ap out)
      (behind (pre ++ text) .text ap (out ++ text)) := by
  induction text generalizing pre out with
  | nil =>
      rw [List.append_nil, List.append_nil]
      exact .refl _
  | cons f text ih =>
      obtain ⟨hpercent, hnul⟩ := htext f List.mem_cons_self
      have hrest : ∀ f ∈ text, f ≠ '%'.toUInt8 ∧ f ≠ 0 := fun g hg =>
        htext g (List.mem_cons_of_mem f hg)
      have hs' : s = (pre ++ [f]) ++ (text ++ post) := by
        rw [hs, List.append_assoc]
        rfl
      have hreach := ih hrest (pre ++ [f]) hs' (out ++ [f])
      rw [List.append_assoc, List.append_assoc] at hreach
      exact .step (round_plain hs hpercent hnul) hreach

/-- The flags of an escape are read up to the character behind them. -/
theorem escape_run (hflags : ∀ f ∈ flags, IsFlag f)
    (hpost : ¬ IsDigit (charAt post)) (pre : List UInt8)
    (hs : s = pre ++ '%'.toUInt8 :: (flags ++ post)) (ap : Nat)
    (out : List UInt8) :
    ∃ e, Reaches (round s args) (behind pre .text ap out)
      (behind (pre ++ '%'.toUInt8 :: flags) (.reswitch e)
        (ap + flags.count '*'.toUInt8) out) := by
  have hs' : s = (pre ++ ['%'.toUInt8]) ++ (flags ++ post) := by
    rw [hs, List.append_assoc]
    rfl
  obtain ⟨e, hreach⟩ := @flags_run s post flags args hflags hpost
    (pre ++ ['%'.toUInt8]) hs' ap out _ (.inl ⟨.init, rfl⟩)
  rw [List.append_assoc] at hreach
  exact ⟨e, .step (round_percent hs) hreach⟩

/-- An escape with no label is put up to the character that has none. -/
theorem default_run (hflags : ∀ f ∈ flags, IsFlag f)
    (hpost : labelOf (charAt post) = .default) (pre : List UInt8)
    (hs : s = pre ++ '%'.toUInt8 :: (flags ++ post)) (ap : Nat)
    (out : List UInt8) :
    Reaches (round s args) (behind pre .text ap out)
      (behind (pre ++ '%'.toUInt8 :: flags) .text
        (ap + flags.count '*'.toUInt8) (out ++ '%'.toUInt8 :: flags)) := by
  have hdigit : ¬ IsDigit (charAt post) := by
    intro hdigit
    have hflag := hdigit.flag
    unfold IsFlag at hflag
    rw [hpost] at hflag
    cases hflag
  have hs' : s = (pre ++ '%'.toUInt8 :: flags) ++ post := by
    rw [hs, List.append_assoc]
    rfl
  have htext : s = (pre ++ ['%'.toUInt8]) ++ (flags ++ post) := by
    rw [hs, List.append_assoc]
    rfl
  obtain ⟨e, hescape⟩ := @escape_run s post flags args hflags hdigit pre hs ap
    out
  have hround := @round_default s _ post args e (ap + flags.count '*'.toUInt8)
    out hs' hpost
  have hback := @back_run s post flags args hflags pre hs
    (ap + flags.count '*'.toUInt8) (out ++ ['%'.toUInt8])
  have hplain := @text_run s post args flags
    (fun f hf => ⟨(hflags f hf).ne_percent, (hflags f hf).ne_nul⟩)
    (pre ++ ['%'.toUInt8]) htext (ap + flags.count '*'.toUInt8)
    (out ++ ['%'.toUInt8])
  rw [List.append_assoc, List.append_assoc] at hplain
  exact hescape.trans (.step hround (hback.trans hplain))

/-- An unknown escape is put as it stands. -/
theorem unknown_run (hflags : ∀ f ∈ flags, IsFlag f)
    (hc : labelOf c = .default) (hnul : c ≠ 0) (pre : List UInt8)
    (hs : s = pre ++ '%'.toUInt8 :: (flags ++ c :: post)) (ap : Nat)
    (out : List UInt8) :
    Reaches (round s args) (behind pre .text ap out)
      (behind (pre ++ '%'.toUInt8 :: (flags ++ [c])) .text
        (ap + flags.count '*'.toUInt8)
        (out ++ '%'.toUInt8 :: (flags ++ [c]))) := by
  have hpercent : c ≠ '%'.toUInt8 := by
    intro heq
    rw [heq, labelOf_percent] at hc
    cases hc
  have hs' : s = (pre ++ '%'.toUInt8 :: flags) ++ c :: post := by
    rw [hs, List.append_assoc]
    rfl
  have hround := @round_plain s _ post args c (ap + flags.count '*'.toUInt8)
    (out ++ '%'.toUInt8 :: flags) hs' hpercent hnul
  rw [List.append_assoc, List.append_assoc] at hround
  have hreach := @default_run s (c :: post) flags args hflags hc pre hs ap out
  exact hreach.tail hround

/-- An escape that the format ends in is put as it stands. -/
theorem truncated_run (hflags : ∀ f ∈ flags, IsFlag f) (pre : List UInt8)
    (hs : s = pre ++ '%'.toUInt8 :: flags) (ap : Nat) (out : List UInt8) :
    ∃ st, Reaches (round s args) (behind pre .text ap out) st
      ∧ round s args st = .stop (some (out ++ '%'.toUInt8 :: flags)) := by
  have hs' : s = pre ++ '%'.toUInt8 :: (flags ++ []) := by
    rw [hs, List.append_nil]
  have hreach := @default_run s [] flags args hflags labelOf_nul pre hs' ap out
  rw [← hs] at hreach
  exact ⟨_, hreach, round_end⟩

/-- A conversion is read to its end. -/
theorem conversion_run (hflags : ∀ f ∈ flags, IsFlag f) (hc : ¬ IsFlag c)
    (hknown : labelOf c ≠ .default) (pre : List UInt8)
    (hs : s = pre ++ '%'.toUInt8 :: (flags ++ c :: post)) (ap : Nat)
    (out : List UInt8) :
    ∃ ap' put, Reaches (round s args) (behind pre .text ap out)
      (behind (pre ++ '%'.toUInt8 :: (flags ++ [c])) .text ap'
        (out ++ put)) := by
  have hdigit : ¬ IsDigit c := fun hdigit => hc hdigit.flag
  have hs' : s = (pre ++ '%'.toUInt8 :: flags) ++ c :: post := by
    rw [hs, List.append_assoc]
    rfl
  obtain ⟨e, hescape⟩ := @escape_run s (c :: post) flags args hflags hdigit pre
    hs ap out
  have hround := @round_reswitch s _ (c :: post) args e
    (ap + flags.count '*'.toUInt8) out hs'
  obtain ⟨n, put, hswitch⟩ := @switch_conversion args
    { behind (pre ++ '%'.toUInt8 :: flags) (.reswitch e)
        (ap + flags.count '*'.toUInt8) out with
      fmt := ((pre ++ '%'.toUInt8 :: flags).length : Int) + 1 } e c hc hknown
  rw [show charAt (c :: post) = c from rfl, hswitch, behind_next,
    List.append_assoc] at hround
  exact ⟨_, put, hescape.tail hround⟩

-- =================================================== the inner calls

/-- What the inner calls of `printfmt` put, which `errorText` has. -/
theorem vprintfmt_error (args : Args) :
    vprintfmt 10 (chars "error %d") args = some (some
      (chars "error " ++ Escape.init.decimal ((args.int 0).signExtend 64))) :=
  rfl

theorem vprintfmt_string (args : Args) (h : args.slot 0 ≠ 0) :
    vprintfmt 3 (chars "%s") args
      = some (some (Escape.init.text (args.string (args.slot 0)))) := by
  have hrun : vprintfmt 3 (chars "%s") args = some (some (Escape.init.text
      (if args.slot 0 = 0 then chars "(null)"
        else args.string (args.slot 0)))) := rfl
  rw [hrun, if_neg h]

-- ==================================================== the whole scan

/-- The flags behind a percent sign, and what is behind them. -/
theorem escape_split (rest : List UInt8) :
    ∃ flags post, rest = flags ++ post ∧ (∀ f ∈ flags, IsFlag f)
      ∧ (post = [] ∨ ∃ c post', post = c :: post' ∧ ¬ IsFlag c) := by
  induction rest with
  | nil => exact ⟨[], [], rfl, (fun _ h => by cases h), .inl rfl⟩
  | cons c rest ih =>
      by_cases hc : IsFlag c
      · obtain ⟨flags, post, rfl, hflags, hpost⟩ := ih
        refine ⟨c :: flags, post, rfl, fun f hf => ?_, hpost⟩
        obtain rfl | hf := List.mem_cons.1 hf
        · exact hc
        · exact hflags f hf
      · exact ⟨[], c :: rest, rfl, (fun _ h => by cases h), .inr ⟨c, rest, rfl, hc⟩⟩

/-- From every place in the plain text the scan comes to the end. -/
theorem scan_ends (hnul : (0 : UInt8) ∉ s) (rest pre : List UInt8)
    (hs : s = pre ++ rest) (ap : Nat) (out : List UInt8) :
    ∃ st out', Reaches (round s args) (behind pre .text ap out) st
      ∧ round s args st = .stop (some out') := by
  induction hlen : rest.length using Nat.strongRecOn generalizing rest pre ap out
    with
  | ind n ih =>
      cases rest with
      | nil =>
          rw [List.append_nil] at hs
          rw [← hs]
          exact ⟨_, out, .refl _, round_end⟩
      | cons c rest =>
          by_cases hpercent : c ≠ '%'.toUInt8
          · have hc : c ≠ 0 := by
              intro heq
              rw [hs, heq] at hnul
              exact hnul (List.mem_append_right pre List.mem_cons_self)
            have hs' : s = (pre ++ [c]) ++ rest := by
              rw [hs, List.append_assoc]
              rfl
            have hlt : rest.length < n := by
              rw [← hlen]
              exact Nat.lt_succ_self _
            obtain ⟨st, out', hreach, hstop⟩ := ih _ hlt rest (pre ++ [c]) hs' ap
              (out ++ [c]) rfl
            exact ⟨st, out', .step (round_plain hs hpercent hc) hreach, hstop⟩
          · rw [not_not.1 hpercent] at hs
            obtain ⟨flags, post, rfl, hflags, hpost⟩ := escape_split rest
            obtain rfl | ⟨d, post, rfl, hd⟩ := hpost
            · rw [List.append_nil] at hs
              obtain ⟨st, hreach, hstop⟩ := truncated_run hflags pre hs ap out
              exact ⟨st, _, hreach, hstop⟩
            · have hs' : s = (pre ++ '%'.toUInt8 :: (flags ++ [d])) ++ post := by
                rw [hs]
                simp
              have hlt : post.length < n := by
                rw [← hlen]
                simp
                omega
              have hstep : ∃ ap' out', Reaches (round s args)
                  (behind pre .text ap out)
                  (behind (pre ++ '%'.toUInt8 :: (flags ++ [d])) .text ap'
                    out') := by
                by_cases hknown : labelOf d = .default
                · have hd0 : d ≠ 0 := by
                    intro heq
                    rw [hs, heq] at hnul
                    exact hnul (by simp)
                  exact ⟨_, _, unknown_run hflags hknown hd0 pre hs ap out⟩
                · obtain ⟨ap', put, hreach⟩ := @conversion_run s post flags args
                    d hflags hd hknown pre hs ap out
                  exact ⟨ap', _, hreach⟩
              obtain ⟨ap', put, hreach⟩ := hstep
              obtain ⟨st, out', hrest, hstop⟩ := ih _ hlt post _ hs' ap' put rfl
              exact ⟨st, out', hreach.trans hrest, hstop⟩

/-- Every format is scanned so, whatever the arguments. -/
theorem vprintfmt_scanned (hnul : (0 : UInt8) ∉ s) (args : Args) :
    Scanned s args := by
  obtain ⟨st, out, hreach, hstop⟩ := @scan_ends s args hnul s [] rfl 0 []
  constructor
  · obtain ⟨rounds, hrun⟩ := hreach.returns hstop
    exact ⟨rounds, out, hrun⟩
  · intro st' hreach' hstop'
    have hsame := hreach.stop_unique hstop hreach' hstop'
    cases hsame
  · intro pre flags c post hs hflags hc ap out
    have hc0 : c ≠ 0 := by
      intro heq
      rw [hs, heq] at hnul
      exact hnul (by simp)
    exact unknown_run hflags hc hc0 pre hs ap out
  · intro pre flags hs hflags ap out
    exact truncated_run hflags pre hs ap out

/-- A format with a conversion, an unknown escape, and one that its end cuts
short. -/
theorem vprintfmt_scanned_short :
    Scanned (chars "%d of %-05*q, 100%-3")
      { slot := fun _ => 7, string := fun _ => [], outside := none } :=
  vprintfmt_scanned (by decide) _

end Ucore.Printfmt
