/-
Numbers that are printed with "%<w>ld" and read with `strtol`. The sign is
put before the digits are padded, so what is put is the sign, the padding and
the digits: a negative number is read back, and its padding is in front,
exactly if there is none.
-/
import Ucore.Libs.Proofs.Scan
import Mathlib.Data.Nat.Basic

namespace Ucore.Printfmt

open Loop

variable {s pre post : List UInt8} {args : Args} {e : Escape} {ch : UInt8}
  {ap n w : Nat} {out : List UInt8} {cs : List Char} {c : Char}

-- ============================================================ digits

/-- The characters of the digits. -/
theorem exists_digit (h : c.isDigit = true) : ∃ d < 10, c = d.digitChar := by
  obtain ⟨hlow, hhigh⟩ := Char.isDigit_iff_toNat.1 h
  have hlow' : 48 ≤ c.toNat := hlow
  have hhigh' : c.toNat ≤ 57 := hhigh
  refine ⟨c.toNat - 48, by omega, Char.toNat_inj.1 ?_⟩
  rw [Nat.toNat_digitChar_of_lt_ten (by omega)]
  omega

theorem digitOf_digitChar {d : Nat} (h : d < 10) :
    digitOf d.digitChar.toUInt8 = some d := by
  revert d
  decide

theorem isDigit_digitChar {d : Nat} (h : d < 10) :
    IsDigit d.digitChar.toUInt8 := by
  revert d
  decide

theorem digitChar_eq {d : Nat} (h : d < 10) :
    digitChar d = d.digitChar.toUInt8 := by
  revert d
  decide

theorem digitsAll (n : Nat) : ∀ c ∈ Nat.toDigits 10 n, ∃ d < 10, c = d.digitChar :=
  fun _ hc => exists_digit
    (Nat.isDigit_of_mem_toDigits (by decide) (by decide) hc)

/-- The last digit comes off the end. -/
theorem decimalDigits_eq (n : Nat) :
    decimalDigits n = (if 10 ≤ n then decimalDigits (n / 10) else [])
      ++ [digitChar (n % 10)] := by
  unfold decimalDigits
  by_cases h : 10 ≤ n
  · rw [if_pos h, Nat.toDigits_of_base_le (by decide) h, List.map_append,
      digitChar_eq (Nat.mod_lt n (by decide))]
    rfl
  · rw [if_neg h, Nat.toDigits_of_lt_base (by omega),
      Nat.mod_eq_of_lt (by omega), digitChar_eq (by omega)]
    rfl

theorem decimalDigits_pos (n : Nat) : 0 < (decimalDigits n).length := by
  rw [decimalDigits_eq, List.length_append]
  exact Nat.lt_add_left _ Nat.zero_lt_one

-- ========================================================== printnum

/-- The digits of a number, padded to the width. -/
theorem printnum_decimal (padc : UInt8) (n : Nat) (width : BitVec 32) :
    printnum 10 (by decide) padc n width
      = List.replicate (padding (width - BitVec.ofNat 32
          ((decimalDigits n).length - 1))) padc ++ decimalDigits n := by
  induction n using Nat.strongRecOn generalizing width with
  | ind n ih =>
      rw [printnum, decimalDigits_eq n]
      by_cases h : 10 ≤ n
      · have hpos := decimalDigits_pos (n / 10)
        have hwidth : width - 1
              - BitVec.ofNat 32 ((decimalDigits (n / 10)).length - 1)
            = width - BitVec.ofNat 32
              ((decimalDigits (n / 10) ++ [digitChar (n % 10)]).length - 1) := by
          obtain ⟨k, hk⟩ := Nat.exists_eq_add_of_lt hpos
          rw [List.length_append, List.length_singleton, Nat.add_sub_cancel, hk,
            Nat.zero_add, Nat.add_sub_cancel, BitVec.ofNat_add]
          grind
        rw [dif_pos h, if_pos h, ih (n / 10) (by omega), hwidth,
          List.append_assoc]
      · rw [dif_neg h, if_neg h]
        simp

-- ============================================================ strtol

/-- The value of digits, from a value on. -/
theorem readDigits_digits (hcs : ∀ c ∈ cs, ∃ d < 10, c = d.digitChar) (n : Nat) :
    readDigits 10 (cs.map Char.toUInt8) (BitVec.ofNat 64 n)
      = (BitVec.ofNat 64 (Nat.ofDigitChars 10 cs n), []) := by
  induction cs generalizing n with
  | nil => rfl
  | cons c cs ih =>
      obtain ⟨d, hd, rfl⟩ := hcs c List.mem_cons_self
      have hrest : ∀ c ∈ cs, ∃ d < 10, c = d.digitChar := fun c hc =>
        hcs c (List.mem_cons_of_mem _ hc)
      have hval : BitVec.ofNat 64 n * BitVec.ofNat 64 10 + BitVec.ofNat 64 d
          = BitVec.ofNat 64 (10 * n + d) := by
        rw [← BitVec.ofNat_mul, ← BitVec.ofNat_add, Nat.mul_comm]
      rw [List.map_cons, readDigits, digitOf_digitChar hd]
      dsimp only
      rw [if_neg (Nat.not_le.2 hd), hval, ih hrest,
        Nat.ofDigitChars_cons_digitChar_of_lt_ten hd]

theorem readDigits_decimal (n : Nat) :
    readDigits 10 (decimalDigits n) 0 = (BitVec.ofNat 64 n, []) := by
  have hread := readDigits_digits (digitsAll n) 0
  rw [Nat.ofDigitChars_ten_toDigits] at hread
  exact hread

/-- A number starts with a digit. -/
theorem decimalDigits_cons (n : Nat) :
    ∃ d rest, d < 10 ∧ decimalDigits n = d.digitChar.toUInt8 :: rest := by
  cases hdigits : Nat.toDigits 10 n with
  | nil => exact absurd hdigits Nat.toDigits_ne_nil
  | cons c cs =>
      obtain ⟨d, hd, rfl⟩ := digitsAll n c (hdigits ▸ List.mem_cons_self)
      refine ⟨d, cs.map Char.toUInt8, hd, ?_⟩
      unfold decimalDigits
      rw [hdigits]
      rfl

/-- A digit is no blank and no sign. -/
theorem digit_plain {d : Nat} (h : d < 10) :
    ¬ (d.digitChar.toUInt8 = ' '.toUInt8 ∨ d.digitChar.toUInt8 = '\t'.toUInt8)
      ∧ d.digitChar.toUInt8 ≠ '+'.toUInt8
      ∧ d.digitChar.toUInt8 ≠ '-'.toUInt8 := by
  revert d
  decide

theorem skipBlanks_spaces (n : Nat) (s : List UInt8) :
    skipBlanks (List.replicate n ' '.toUInt8 ++ s) = skipBlanks s := by
  induction n with
  | zero => rfl
  | succ n ih =>
      rw [List.replicate_succ, List.cons_append, skipBlanks, if_pos (.inl rfl)]
      exact ih

/-- Padded digits are read. -/
theorem strtol_padded (p n : Nat) :
    (strtol (List.replicate p ' '.toUInt8 ++ decimalDigits n) 10).1
      = BitVec.ofNat 64 n := by
  have hread := readDigits_decimal n
  obtain ⟨d, rest, hd, hdigits⟩ := decimalDigits_cons n
  obtain ⟨hblank, hplus, hminus⟩ := digit_plain hd
  rw [hdigits] at hread ⊢
  have hskip : skipBlanks (d.digitChar.toUInt8 :: rest)
      = d.digitChar.toUInt8 :: rest := by
    rw [skipBlanks, if_neg hblank]
  have hsign : readSign (d.digitChar.toUInt8 :: rest)
      = (false, d.digitChar.toUInt8 :: rest) := by
    unfold readSign
    rw [show charAt (d.digitChar.toUInt8 :: rest) = d.digitChar.toUInt8 from rfl,
      if_neg hplus, if_neg hminus]
  unfold strtol
  rw [skipBlanks_spaces, hskip, hsign]
  show (readDigits 10 (d.digitChar.toUInt8 :: rest) 0).1 = _
  rw [hread]

/-- So are digits behind a minus. -/
theorem strtol_minus (n : Nat) :
    (strtol ('-'.toUInt8 :: decimalDigits n) 10).1 = -BitVec.ofNat 64 n := by
  have hread := readDigits_decimal n
  show -(readDigits 10 (decimalDigits n) 0).1 = _
  rw [hread]

/-- Behind a minus a blank ends the number. -/
theorem strtol_gap (p : Nat) (s : List UInt8) :
    (strtol ('-'.toUInt8 :: (List.replicate (p + 1) ' '.toUInt8 ++ s)) 10).1
      = 0 := rfl

-- ======================================================== the format

/-- One more digit of a width. -/
theorem addDigit_eq {a d : Nat} (hd : d < 10)
    (ha : e.precision = BitVec.ofNat 32 a) :
    e.addDigit d.digitChar.toUInt8
      = { e with precision := BitVec.ofNat 32 (10 * a + d) } := by
  have hch : d.digitChar.toUInt8.toBitVec.setWidth 32 = BitVec.ofNat 32 (48 + d) := by
    revert d
    decide
  have hzero : '0'.toUInt8.toBitVec.setWidth 32 = BitVec.ofNat 32 48 := by decide
  unfold Escape.addDigit
  rw [ha, hch, hzero, BitVec.ofNat_add, BitVec.ofNat_add, BitVec.ofNat_mul]
  congr 1
  grind

/-- The digits of a width are read. -/
theorem digits_run (hcs : ∀ c ∈ cs, ∃ d < 10, c = d.digitChar)
    (hpost : ¬ IsDigit (charAt post)) {a : Nat} (pre : List UInt8)
    (e : Escape) (ch : UInt8)
    (ha : e.addDigit ch = { e with precision := BitVec.ofNat 32 a })
    (hs : s = pre ++ (cs.map Char.toUInt8 ++ post)) (ap : Nat)
    (out : List UInt8) :
    Reaches (round s args) (behind pre (.digits e ch) ap out)
      (behind (pre ++ cs.map Char.toUInt8)
        (.reswitch (Escape.processPrecision
          { e with precision := BitVec.ofNat 32 (Nat.ofDigitChars 10 cs a) }))
        ap out) := by
  induction cs generalizing pre e ch a with
  | nil =>
      rw [List.map_nil, List.append_nil]
      have hround := @round_noDigit s pre post args e ch ap out hs hpost
      rw [ha] at hround
      exact .step hround (.refl _)
  | cons c cs ih =>
      obtain ⟨d, hd, rfl⟩ := hcs c List.mem_cons_self
      have hrest : ∀ c ∈ cs, ∃ d < 10, c = d.digitChar := fun c hc =>
        hcs c (List.mem_cons_of_mem _ hc)
      have hs' : s = (pre ++ [d.digitChar.toUInt8])
          ++ (cs.map Char.toUInt8 ++ post) := by
        rw [hs, List.append_assoc]
        rfl
      have hround := @round_digit s pre _ args e d.digitChar.toUInt8 ch ap out hs
        (isDigit_digitChar hd)
      rw [ha] at hround
      have hreach := ih hrest (pre ++ [d.digitChar.toUInt8])
        { e with precision := BitVec.ofNat 32 a } d.digitChar.toUInt8
        (addDigit_eq hd rfl) hs'
      rw [List.append_assoc] at hreach
      rw [Nat.ofDigitChars_cons_digitChar_of_lt_ten hd]
      exact .step hround hreach

/-- A number that is not 0 starts with a digit that is not 0. -/
theorem toDigits_cons (hn : 1 ≤ n) :
    ∃ d cs, 1 ≤ d ∧ d < 10 ∧ Nat.toDigits 10 n = d.digitChar :: cs := by
  induction n using Nat.strongRecOn with
  | ind n ih =>
      by_cases h : 10 ≤ n
      · obtain ⟨d, cs, hpos, hd, hdigits⟩ := ih (n / 10) (by omega) (by omega)
        rw [Nat.toDigits_of_base_le (by decide) h, hdigits]
        exact ⟨d, _, hpos, hd, rfl⟩
      · rw [Nat.toDigits_of_lt_base (by omega)]
        exact ⟨n, [], hn, by omega, rfl⟩

theorem labelOf_digitChar {d : Nat} (hpos : 1 ≤ d) (hd : d < 10) :
    labelOf d.digitChar.toUInt8 = .digit := by
  revert d
  decide

/-- What follows the width. -/
theorem long_tail (hs : s = pre ++ chars "ld") :
    ∃ st, Reaches (round s args) (behind pre (.reswitch e) ap out) st
      ∧ round s args st = .stop (some (out
        ++ Escape.decimal { e with lflag := e.lflag + 1 }
          (getint args ap (e.lflag + 1)))) := by
  have hs' : s = (pre ++ ['l'.toUInt8]) ++ ['d'.toUInt8] := by
    rw [hs, List.append_assoc]
    rfl
  have hend : (pre ++ ['l'.toUInt8]) ++ ['d'.toUInt8] = s := hs'.symm
  have hlong : round s args (behind pre (.reswitch e) ap out)
      = .again (behind (pre ++ ['l'.toUInt8])
        (.reswitch { e with lflag := e.lflag + 1 }) ap out) := by
    rw [round_reswitch hs, ← behind_next]
    rfl
  have hdecimal : round s args (behind (pre ++ ['l'.toUInt8])
        (.reswitch { e with lflag := e.lflag + 1 }) ap out)
      = .again (behind s .text (ap + 1) (out
        ++ Escape.decimal { e with lflag := e.lflag + 1 }
          (getint args ap (e.lflag + 1)))) := by
    rw [round_reswitch hs', ← hend,
      ← behind_next (pre ++ ['l'.toUInt8]) 'd'.toUInt8 .text (ap + 1)]
    rfl
  exact ⟨_, .step hlong (.step hdecimal (.refl _)), round_end⟩

/-- The escape that "%<w>ld" makes. -/
def longEscape (w : Nat) : Escape :=
  { Escape.init with width := BitVec.ofNat 32 w, lflag := 1 }

/-- What "%<w>ld" puts. -/
theorem vprintfmt_long (hw : 1 ≤ w) (args : Args) :
    ∃ rounds, vprintfmt rounds (longFormat w) args
      = some (some ((longEscape w).decimal (args.slot 0))) := by
  obtain ⟨d, cs, hpos, hd, hdigits⟩ := toDigits_cons hw
  have hcs : ∀ c ∈ cs, ∃ d < 10, c = d.digitChar := fun c hc =>
    digitsAll w c (hdigits ▸ List.mem_cons_of_mem _ hc)
  have hformat : longFormat w = '%'.toUInt8 :: (d.digitChar.toUInt8
      :: (cs.map Char.toUInt8 ++ chars "ld")) := by
    unfold longFormat decimalDigits
    rw [hdigits]
    rfl
  have hvalue : Nat.ofDigitChars 10 cs (10 * 0 + d) = w := by
    rw [← Nat.ofDigitChars_cons_digitChar_of_lt_ten hd, ← hdigits,
      Nat.ofDigitChars_ten_toDigits]
  -- the percent sign and the first digit
  have hpercent := @round_percent _ [] _ args 0 [] hformat
  have hfirst : round (longFormat w) args
      (behind ['%'.toUInt8] (.reswitch .init) 0 [])
      = .again (behind ['%'.toUInt8, d.digitChar.toUInt8]
        (.digits { Escape.init with precision := 0 } d.digitChar.toUInt8) 0
        []) := by
    rw [@round_reswitch _ ['%'.toUInt8] _ args .init 0 [] hformat]
    unfold Scan.switch
    rw [show charAt (d.digitChar.toUInt8 :: (cs.map Char.toUInt8 ++ chars "ld"))
      = d.digitChar.toUInt8 from rfl, labelOf_digitChar hpos hd]
    rfl
  -- the other digits
  have hrest := @digits_run _ (chars "ld") args cs hcs (by decide) (10 * 0 + d)
    ['%'.toUInt8, d.digitChar.toUInt8] { Escape.init with precision := 0 }
    d.digitChar.toUInt8 (addDigit_eq hd rfl) hformat 0 []
  rw [hvalue] at hrest
  have hend : longFormat w = ['%'.toUInt8, d.digitChar.toUInt8]
      ++ cs.map Char.toUInt8 ++ chars "ld" := hformat
  obtain ⟨st, htail, hstop⟩ := @long_tail _ _ args (Escape.processPrecision
    { Escape.init with precision := BitVec.ofNat 32 w }) 0 [] hend
  have hreach : Reaches (round (longFormat w) args) start st :=
    .step hpercent (.step hfirst (hrest.trans htail))
  exact hreach.returns hstop

theorem vprintfmt_unique {rounds rounds' : Nat} {r r' : Option (List UInt8)}
    (h : vprintfmt rounds s args = some r)
    (h' : vprintfmt rounds' s args = some r') : r = r' := by
  obtain ⟨st, hreach, hstop⟩ := reaches_of_run h
  obtain ⟨st', hreach', hstop'⟩ := reaches_of_run h'
  exact hreach.stop_unique hstop hreach' hstop'

-- ======================================================= the padding

/-- The characters that pad `k` digits. The width is an `int`, so one from
2 ^ 31 on may be negative. -/
theorem padding_eq {k : Nat} (hk : 0 < k) (hk' : k < 2 ^ 32) :
    padding (BitVec.ofNat 32 w - BitVec.ofNat 32 (k - 1))
      = if (w + (2 ^ 32 - k)) % 2 ^ 32 < 2 ^ 31 then
          (w + (2 ^ 32 - k)) % 2 ^ 32
        else 0 := by
  have hnat : (BitVec.ofNat 32 w - BitVec.ofNat 32 (k - 1) - 1).toNat
      = (w + (2 ^ 32 - k)) % 2 ^ 32 := by
    have hone : (1 : BitVec 32).toNat = 1 := rfl
    have hdigits : (k - 1) % 2 ^ 32 = k - 1 := Nat.mod_eq_of_lt (by omega)
    rw [BitVec.toNat_sub, BitVec.toNat_sub, BitVec.toNat_ofNat,
      BitVec.toNat_ofNat, hone, hdigits]
    omega
  unfold padding
  rw [BitVec.toInt_eq_toNat_cond, hnat]
  split
  case isTrue h =>
      rw [if_pos (by omega), Int.toNat_natCast]
  case isFalse h =>
      rw [if_neg (by omega)]
      omega

/-- A `long` has at most 20 digits. -/
theorem decimalDigits_length (hn : n < 2 ^ 64) : (decimalDigits n).length ≤ 20 := by
  unfold decimalDigits
  rw [List.length_map, Nat.length_toDigits_le_iff (by decide) (by decide)]
  omega

theorem toNat_of_nonneg {v : BitVec 64} (h : ¬ v.toInt < 0) :
    v.toNat = v.toInt.natAbs := by
  rw [BitVec.toInt_eq_toNat_cond] at *
  split at *
  case isTrue => omega
  case isFalse =>
      have := v.isLt
      omega

theorem toNat_neg_of_neg {v : BitVec 64} (h : v.toInt < 0) :
    (-v).toNat = v.toInt.natAbs := by
  have hlt := v.isLt
  rw [BitVec.toNat_neg]
  rw [BitVec.toInt_eq_toNat_cond] at *
  split at *
  case isTrue => omega
  case isFalse => omega

/-- The sign, the padding and the digits. -/
theorem longEscape_decimal (w : Nat) (v : BitVec 64) :
    ∃ p, (longEscape w).decimal v
        = (if v.toInt < 0 then ['-'.toUInt8] else [])
          ++ (List.replicate p ' '.toUInt8 ++ decimalDigits v.toInt.natAbs)
      ∧ p = padding (BitVec.ofNat 32 w
        - BitVec.ofNat 32 ((decimalDigits v.toInt.natAbs).length - 1)) := by
  refine ⟨_, ?_, rfl⟩
  unfold Escape.decimal Escape.number
  by_cases h : v.toInt < 0
  · rw [if_pos h, if_pos h, printnum_decimal, toNat_neg_of_neg h]
    rfl
  · rw [if_neg h, if_neg h, printnum_decimal, toNat_of_nonneg h]
    rfl

/-- How much the digits are padded. -/
theorem padding_long (w : Nat) (v : BitVec 64) {p k : Nat}
    (hk : k = (decimalDigits v.toInt.natAbs).length)
    (hp : p = padding (BitVec.ofNat 32 w - BitVec.ofNat 32 (k - 1))) :
    0 < k ∧ p < 2 ^ 31 ∧ (w < 2 ^ 31 + k → p = w - k) := by
  have hpos : 0 < k := hk ▸ decimalDigits_pos _
  have hle : k ≤ 20 := by
    rw [hk]
    apply decimalDigits_length
    have := v.isLt
    rw [BitVec.toInt_eq_toNat_cond]
    split
    case isTrue => omega
    case isFalse => omega
  rw [padding_eq hpos (by omega)] at hp
  refine ⟨hpos, ?_, fun hw => ?_⟩
  · rw [hp]
    split
    case isTrue h => exact h
    case isFalse => omega
  · rw [hp]
    split
    case isTrue h => omega
    case isFalse h => omega

-- ========================================================= read back

theorem ofNat_natAbs_of_nonneg {v : BitVec 64} (h : ¬ v.toInt < 0) :
    BitVec.ofNat 64 v.toInt.natAbs = v := by
  rw [← toNat_of_nonneg h, BitVec.ofNat_toNat, BitVec.setWidth_eq]

theorem neg_ofNat_natAbs_of_neg {v : BitVec 64} (h : v.toInt < 0) :
    -BitVec.ofNat 64 v.toInt.natAbs = v := by
  rw [← toNat_neg_of_neg h, BitVec.ofNat_toNat, BitVec.setWidth_eq,
    BitVec.neg_neg]

/-- Numbers that are not negative are read back, unless the width wraps. -/
theorem readsBack_nonneg (hw : 1 ≤ w) (h : ¬ (args.slot 0).toInt < 0) :
    ReadsBack args w ↔ w < 2 ^ 31 + digitCount (args.slot 0) := by
  obtain ⟨rounds, hrun⟩ := vprintfmt_long hw args
  obtain ⟨p, hput, hp⟩ := longEscape_decimal w (args.slot 0)
  obtain ⟨hpos, hlt, hpad⟩ := padding_long w (args.slot 0) rfl hp
  rw [hput, if_neg h, List.nil_append] at hrun
  have hform : decimalForm (args.slot 0).toInt
      = decimalDigits (args.slot 0).toInt.natAbs := if_neg h
  unfold ReadsBack digitCount
  rw [hform]
  constructor
  · intro hback
    obtain ⟨rounds', out, hrun', -, hlength, -⟩ := hback
    have hout := vprintfmt_unique hrun' hrun
    cases hout
    rw [List.length_append, List.length_replicate] at hlength
    omega
  · intro hfit
    refine ⟨rounds, _, hrun, ?_, ?_, p, rfl⟩
    · rw [strtol_padded, ofNat_natAbs_of_nonneg h]
    · have hwidth := hpad hfit
      rw [List.length_append, List.length_replicate]
      omega

/-- Negative numbers are read back if they are not padded. -/
theorem readsBack_neg (hw : 1 ≤ w) (h : (args.slot 0).toInt < 0) :
    ReadsBack args w ↔ w ≤ digitCount (args.slot 0) := by
  obtain ⟨rounds, hrun⟩ := vprintfmt_long hw args
  obtain ⟨p, hput, hp⟩ := longEscape_decimal w (args.slot 0)
  obtain ⟨hpos, hlt, hpad⟩ := padding_long w (args.slot 0) rfl hp
  rw [hput, if_pos h, List.singleton_append] at hrun
  have hform : decimalForm (args.slot 0).toInt
      = '-'.toUInt8 :: decimalDigits (args.slot 0).toInt.natAbs := if_pos h
  unfold ReadsBack digitCount
  rw [hform]
  constructor
  · intro hback
    obtain ⟨rounds', out, hrun', hread, hlength, -⟩ := hback
    have hout := vprintfmt_unique hrun' hrun
    cases hout
    cases p with
    | zero =>
        rw [List.length_cons, List.length_append, List.length_replicate,
          List.length_cons] at hlength
        by_cases hfit : w < 2 ^ 31 + (decimalDigits
          (args.slot 0).toInt.natAbs).length
        · have hwidth := hpad hfit
          omega
        · omega
    | succ p =>
        -- a blank behind the sign ends the number
        rw [strtol_gap] at hread
        rw [← hread] at h
        exact absurd h (by decide)
  · intro hfit
    have hzero : p = 0 := by
      have hwidth := hpad (by omega)
      omega
    rw [hzero] at hrun
    refine ⟨rounds, _, hrun, ?_, ?_, 0, rfl⟩
    · exact (strtol_minus _).trans (neg_ofNat_natAbs_of_neg h)
    · rw [List.replicate_zero, List.nil_append, List.length_cons]
      omega

/-- A number that is printed is read back, with its padding in front, exactly
if it is not negative and the width does not wrap, or negative and as wide as
the field without its sign. -/
theorem readsBack_iff (hw : 1 ≤ w) (args : Args) :
    ReadsBack args w
      ↔ 0 ≤ (args.slot 0).toInt ∧ w < 2 ^ 31 + digitCount (args.slot 0)
        ∨ (args.slot 0).toInt < 0 ∧ w ≤ digitCount (args.slot 0) := by
  by_cases h : (args.slot 0).toInt < 0
  · rw [readsBack_neg hw h]
    omega
  · rw [readsBack_nonneg hw h]
    omega

/-- The least `long` in a field of 19. -/
theorem readsBack_iff_min :
    ReadsBack { slot := fun _ => BitVec.intMin 64, string := fun _ => []
                outside := none } 19 := by
  apply (readsBack_iff (by decide) _).2
  exact .inr (by decide +kernel)

/-- "%5ld" of -5 is a sign, four blanks and a digit. -/
theorem readsBack_padded :
    ¬ ReadsBack { slot := fun _ => -5, string := fun _ => [], outside := none }
      5 := by
  rw [readsBack_neg (by decide) (by decide)]
  decide

end Ucore.Printfmt
