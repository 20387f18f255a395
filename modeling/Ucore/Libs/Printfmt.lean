/-
libs/printfmt.c: formatted output, to the characters that are put.

The format is the list of its characters, none of them NUL, and the NUL
after them. What is read elsewhere is outside of it: the function stops
there with `none`. An argument takes eight bytes, whatever its type. `int`
wraps.
-/
import Ucore.Lib.Loop
import Ucore.Libs.String

namespace Ucore.Printfmt

open Loop (Round Reaches)

/-- The characters of a text. -/
def chars (s : String) : List UInt8 := s.toList.map Char.toUInt8

-- ===================================================== the arguments

/-- The arguments, and what they may point at: `string` of an address is the
string there, and `outside` what is before `error_string`, at the offset
that is the least `int`. -/
structure Args where
  slot : Nat → BitVec 64
  string : BitVec 64 → List UInt8
  outside : Option (List UInt8)

/-- `va_arg(ap, int)`. -/
def Args.int (args : Args) (ap : Nat) : BitVec 32 :=
  (args.slot ap).setWidth 32

/-- `getuint`. -/
def getuint (args : Args) (ap : Nat) (lflag : BitVec 32) : BitVec 64 :=
  if 2 ≤ lflag.toInt then args.slot ap
  else if lflag ≠ 0 then args.slot ap
  else (args.int ap).setWidth 64

/-- `getint`. -/
def getint (args : Args) (ap : Nat) (lflag : BitVec 32) : BitVec 64 :=
  if 2 ≤ lflag.toInt then args.slot ap
  else if lflag ≠ 0 then args.slot ap
  else (args.int ap).signExtend 64

/-- `MAXERROR`. -/
def maxerror : Nat := 24

/-- `error_string`. -/
def errorString : Nat → Option (List UInt8)
  | 1 => some (chars "unspecified error")
  | 2 => some (chars "bad process")
  | 3 => some (chars "invalid parameter")
  | 4 => some (chars "out of memory")
  | 5 => some (chars "out of processes")
  | 6 => some (chars "segmentation fault")
  | 8 => some (chars "invalid elf file")
  | 9 => some (chars "process is killed")
  | 10 => some (chars "panic failure")
  | 13 => some (chars "no such device")
  | 14 => some (chars "device not available")
  | 15 => some (chars "device/file is busy")
  | 16 => some (chars "no such file or directory")
  | 17 => some (chars "is a directory")
  | 18 => some (chars "not a directory")
  | 19 => some (chars "cross device link")
  | 20 => some (chars "unimplemented feature")
  | 21 => some (chars "illegal seek")
  | 22 => some (chars "too many files are open")
  | 23 => some (chars "file or directory already exists")
  | 24 => some (chars "directory is not empty")
  | _ => none

-- =========================================================== numbers

/-- `"0123456789abcdef"[mod]`. -/
def digitChar (mod : Nat) : UInt8 := (chars "0123456789abcdef").getD mod 0

/-- The rounds of `while (-- width > 0)`. -/
def padding (width : BitVec 32) : Nat := (width - 1).toInt.toNat

/-- `printnum`. -/
def printnum (base : Nat) (hbase : 2 ≤ base) (padc : UInt8) (num : Nat)
    (width : BitVec 32) : List UInt8 :=
  let result := num / base
  let mod := num % base
  (if _ : base ≤ num then printnum base hbase padc result (width - 1)
    else List.replicate (padding width) padc) ++ [digitChar mod]
termination_by num
decreasing_by exact Nat.div_lt_self (by omega) hbase

-- ========================================================= an escape

/-- The variables that an escape sets. -/
structure Escape where
  padc : UInt8
  width : BitVec 32
  precision : BitVec 32
  lflag : BitVec 32
  altflag : Bool

/-- Their values at the percent sign. -/
def Escape.init : Escape where
  padc := ' '.toUInt8
  width := -1
  precision := -1
  lflag := 0
  altflag := false

/-- What `process_precision` does. -/
def Escape.processPrecision (e : Escape) : Escape :=
  if e.width.toInt < 0 then { e with width := e.precision, precision := -1 }
  else e

/-- What follows `number`. -/
def Escape.number (e : Escape) (num : BitVec 64) (base : Nat)
    (hbase : 2 ≤ base) : List UInt8 :=
  printnum base hbase e.padc num.toNat e.width

/-- What `'d'` puts. -/
def Escape.decimal (e : Escape) (num : BitVec 64) : List UInt8 :=
  if num.toInt < 0 then '-'.toUInt8 :: e.number (-num) 10 (by decide)
  else e.number num 10 (by decide)

/-- The loop over the characters of a string: what it puts, and the width
after it. -/
def putString (altflag : Bool) :
    (p : List UInt8) → (precision width : BitVec 32) → List UInt8 × BitVec 32
  | [], _, width => ([], width)
  | ch :: p, precision, width =>
      if precision.toInt < 0 ∨ 0 ≤ (precision - 1).toInt then
        let precision :=
          if precision.toInt < 0 then precision else precision - 1
        let rest := putString altflag p precision (width - 1)
        if altflag = true ∧ (ch < ' '.toUInt8 ∨ '~'.toUInt8 < ch) then
          ('?'.toUInt8 :: rest.1, rest.2)
        else (ch :: rest.1, rest.2)
      else ([], width)

/-- What `'s'` puts. -/
def Escape.text (e : Escape) (p : List UInt8) : List UInt8 :=
  let left := e.width
    - BitVec.ofNat 32 (strnlen p (e.precision.signExtend 64).toNat)
  let (lead, width) :=
    if 0 < e.width.toInt ∧ e.padc ≠ '-'.toUInt8 then
      (List.replicate left.toInt.toNat e.padc,
        if 0 < left.toInt then 0 else left)
    else ([], e.width)
  let (text, width) := putString e.altflag p e.precision width
  lead ++ text ++ List.replicate width.toInt.toNat ' '.toUInt8

/-- What `'e'` puts. The inner calls of `printfmt` have the formats
"error %d" and "%s". -/
def errorText (args : Args) (err : BitVec 32) : List UInt8 :=
  let err := if err.toInt < 0 then -err else err
  let p :=
    if err.toInt < 0 then args.outside
    else if err.toNat ≤ maxerror then errorString err.toNat
    else none
  match p with
  | none => chars "error " ++ Escape.init.decimal (err.signExtend 64)
  | some p => Escape.init.text p

-- ========================================================= vprintfmt

/-- The labels of the switch. -/
inductive Label where
  | minus
  | zero
  | digit
  | star
  | dot
  | sharp
  | long
  | char
  | error
  | string
  | decimal
  | unsigned
  | octal
  | pointer
  | hex
  | percent
  | default
deriving DecidableEq

/-- The label that the switch goes to. -/
def labelOf (ch : UInt8) : Label :=
  if ch = '-'.toUInt8 then .minus
  else if ch = '0'.toUInt8 then .zero
  else if '1'.toUInt8 ≤ ch ∧ ch ≤ '9'.toUInt8 then .digit
  else if ch = '*'.toUInt8 then .star
  else if ch = '.'.toUInt8 then .dot
  else if ch = '#'.toUInt8 then .sharp
  else if ch = 'l'.toUInt8 then .long
  else if ch = 'c'.toUInt8 then .char
  else if ch = 'e'.toUInt8 then .error
  else if ch = 's'.toUInt8 then .string
  else if ch = 'd'.toUInt8 then .decimal
  else if ch = 'u'.toUInt8 then .unsigned
  else if ch = 'o'.toUInt8 then .octal
  else if ch = 'p'.toUInt8 then .pointer
  else if ch = 'x'.toUInt8 then .hex
  else if ch = '%'.toUInt8 then .percent
  else .default

/-- Where the function is: at the head of the loop over plain text, at
`reswitch`, in the loop over the digits of a width after `ch` was read, or
in the loop that goes back to the percent sign. -/
inductive Place where
  | text
  | reswitch (e : Escape)
  | digits (e : Escape) (ch : UInt8)
  | back

/-- The place, `fmt` as an offset in the format, the arguments read, and the
characters put. -/
structure Scan where
  place : Place
  fmt : Int
  ap : Nat
  out : List UInt8

/-- A `break` of the switch, when `n` arguments were read and characters
put. -/
def Scan.leave (st : Scan) (n : Nat) (put : List UInt8) : Scan :=
  { st with place := .text, ap := st.ap + n, out := st.out ++ put }

/-- The switch, after `ch` was read. -/
def Scan.switch (args : Args) (st : Scan) (e : Escape) (ch : UInt8) : Scan :=
  match labelOf ch with
  | .minus => { st with place := .reswitch { e with padc := '-'.toUInt8 } }
  | .zero => { st with place := .reswitch { e with padc := '0'.toUInt8 } }
  | .digit => { st with place := .digits { e with precision := 0 } ch }
  | .star =>
      let e := { e with precision := args.int st.ap }
      { st with place := .reswitch e.processPrecision, ap := st.ap + 1 }
  | .dot =>
      let width := if e.width.toInt < 0 then 0 else e.width
      { st with place := .reswitch { e with width := width } }
  | .sharp => { st with place := .reswitch { e with altflag := true } }
  | .long => { st with place := .reswitch { e with lflag := e.lflag + 1 } }
  | .char => st.leave 1 [UInt8.ofNat (args.int st.ap).toNat]
  | .error => st.leave 1 (errorText args (args.int st.ap))
  | .string =>
      let p := args.slot st.ap
      st.leave 1 (e.text (if p = 0 then chars "(null)" else args.string p))
  | .decimal => st.leave 1 (e.decimal (getint args st.ap e.lflag))
  | .unsigned =>
      st.leave 1 (e.number (getuint args st.ap e.lflag) 10 (by decide))
  | .octal => st.leave 1 (e.number (getuint args st.ap e.lflag) 8 (by decide))
  | .pointer =>
      st.leave 1 (chars "0x" ++ e.number (args.slot st.ap) 16 (by decide))
  | .hex => st.leave 1 (e.number (getuint args st.ap e.lflag) 16 (by decide))
  | .percent => st.leave 0 [ch]
  | .default =>
      { st with place := .back, fmt := st.fmt - 1,
                out := st.out ++ ['%'.toUInt8] }

/-- The byte at an offset from the start of the format. -/
def byteAt (s : List UInt8) (i : Int) : Option UInt8 :=
  if 0 ≤ i then (s ++ [0])[i.toNat]? else none

/-- What follows the read of a byte. -/
def reading (s : List UInt8) (i : Int)
    (next : UInt8 → Round Scan (Option (List UInt8))) :
    Round Scan (Option (List UInt8)) :=
  match byteAt s i with
  | none => .stop none
  | some ch => next ch

/-- A round of `vprintfmt`, with the one byte of the format that it reads. -/
def round (s : List UInt8) (args : Args) (st : Scan) :
    Round Scan (Option (List UInt8)) :=
  match st.place with
  | .text =>
      reading s st.fmt fun ch =>
        let st := { st with fmt := st.fmt + 1 }
        if ch ≠ '%'.toUInt8 then
          if ch = 0 then .stop (some st.out)
          else .again { st with out := st.out ++ [ch] }
        else .again { st with place := .reswitch .init }
  | .reswitch e =>
      reading s st.fmt fun ch =>
        .again (Scan.switch args { st with fmt := st.fmt + 1 } e ch)
  | .digits e ch =>
      let e := { e with
        precision := e.precision * 10 + ch.toBitVec.setWidth 32
          - '0'.toUInt8.toBitVec.setWidth 32 }
      reading s st.fmt fun ch =>
        if ch < '0'.toUInt8 ∨ '9'.toUInt8 < ch then
          .again { st with place := .reswitch e.processPrecision }
        else .again { st with place := .digits e ch, fmt := st.fmt + 1 }
  | .back =>
      reading s (st.fmt - 1) fun ch =>
        if ch ≠ '%'.toUInt8 then .again { st with fmt := st.fmt - 1 }
        else .again { st with place := .text }

/-- The start of `vprintfmt`. -/
def start : Scan where
  place := .text
  fmt := 0
  ap := 0
  out := []

/-- `vprintfmt`, if it returns within the rounds: the characters it puts, or
`none` if it reads outside of the format. -/
def vprintfmt (rounds : Nat) (s : List UInt8) (args : Args) :
    Option (Option (List UInt8)) :=
  Loop.run (round s args) rounds start

-- ========================================================== the scan

/-- The labels that go back to `reswitch`. -/
def Label.isFlag : Label → Bool
  | .minus | .zero | .digit | .star | .dot | .sharp | .long => true
  | _ => false

/-- A character of an escape before its last one. -/
def IsFlag (ch : UInt8) : Prop := (labelOf ch).isFlag = true

instance (ch : UInt8) : Decidable (IsFlag ch) :=
  inferInstanceAs (Decidable (_ = true))

/-- The state behind an initial part of the format. -/
def behind (pre : List UInt8) (place : Place) (ap : Nat) (out : List UInt8) :
    Scan where
  place := place
  fmt := pre.length
  ap := ap
  out := out

/-- What the scan of a format is to do: to return, with every byte that it
reads in the format or its NUL, and to put an unknown escape as it stands,
be it before a character or at the end. -/
structure Scanned (s : List UInt8) (args : Args) : Prop where
  returns : ∃ rounds out, vprintfmt rounds s args = some (some out)
  inside : ∀ st, Reaches (round s args) start st →
    round s args st ≠ .stop none
  unknown : ∀ pre flags c post, s = pre ++ '%'.toUInt8 :: (flags ++ c :: post) →
    (∀ f ∈ flags, IsFlag f) → labelOf c = .default →
    ∀ ap out, Reaches (round s args) (behind pre .text ap out)
      (behind (pre ++ '%'.toUInt8 :: (flags ++ [c])) .text
        (ap + flags.count '*'.toUInt8)
        (out ++ '%'.toUInt8 :: (flags ++ [c])))
  truncated : ∀ pre flags, s = pre ++ '%'.toUInt8 :: flags →
    (∀ f ∈ flags, IsFlag f) →
    ∀ ap out, ∃ st, Reaches (round s args) (behind pre .text ap out) st
      ∧ round s args st = .stop (some (out ++ '%'.toUInt8 :: flags))

-- ====================================================== reading back

/-- The decimal digits of a number. -/
def decimalDigits (n : Nat) : List UInt8 := (Nat.toDigits 10 n).map Char.toUInt8

/-- Its decimal form, with a sign. -/
def decimalForm (v : Int) : List UInt8 :=
  if v < 0 then '-'.toUInt8 :: decimalDigits v.natAbs
  else decimalDigits v.natAbs

/-- How many digits a `long` has. -/
def digitCount (v : BitVec 64) : Nat := (decimalDigits v.toInt.natAbs).length

/-- The format "%<w>ld". -/
def longFormat (w : Nat) : List UInt8 :=
  '%'.toUInt8 :: (decimalDigits w ++ chars "ld")

/-- The first argument, printed in a field of width `w`, is what `strtol`
reads; the text is as wide as the field or the number, and padded in front of
the sign and the digits. -/
def ReadsBack (args : Args) (w : Nat) : Prop :=
  ∃ rounds out, vprintfmt rounds (longFormat w) args = some (some out)
    ∧ (strtol out 10).1 = args.slot 0
    ∧ out.length = max w (decimalForm (args.slot 0).toInt).length
    ∧ ∃ n, out = List.replicate n ' '.toUInt8
        ++ decimalForm (args.slot 0).toInt

end Ucore.Printfmt
