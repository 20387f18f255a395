/-
libs/string.c: `strnlen`, `strchr`, `strcmp` and `strtol`.

A string is the list of its characters; the NUL after them is what is read
at its end. A string that is written to is one in memory, at an address
(`StringAt`). `int` and `long` wrap.
-/
import Mathlib.Data.Nat.Notation

namespace Ucore

/-- `*s`. -/
def charAt (s : List UInt8) : UInt8 := s.headD 0

/-- `strnlen`. -/
def strnlen : (s : List UInt8) → (len : Nat) → Nat
  | _, 0 => 0
  | [], _ + 1 => 0
  | _ :: s, len + 1 => strnlen s len + 1

/-- `strchr`: what the pointer it returns points at. -/
def strchr : (s : List UInt8) → (c : UInt8) → Option (List UInt8)
  | [], _ => none
  | a :: s, c => if a = c then some (a :: s) else strchr s c

/-- `strcmp`, with a string in memory. -/
def strcmp (mem : Nat → UInt8) : (s1 : List UInt8) → (s2 : Nat) → Int
  | [], s2 => -(mem s2).toNat
  | c :: s1, s2 =>
      if c = mem s2 then strcmp mem s1 (s2 + 1) else c.toNat - (mem s2).toNat

/-- The string at an address, up to its NUL. -/
structure StringAt (mem : Nat → UInt8) (p : Nat) (s : List UInt8) : Prop where
  nul : (0 : UInt8) ∉ s
  reads : ∀ i ≤ s.length, mem (p + i) = s.getD i 0

-- ============================================================ strtol

/-- The value of a digit or of a letter, in the order of the tests. -/
def digitOf (c : UInt8) : Option Nat :=
  if '0'.toUInt8 ≤ c ∧ c ≤ '9'.toUInt8 then
    some (c.toNat - '0'.toNat)
  else if 'a'.toUInt8 ≤ c ∧ c ≤ 'z'.toUInt8 then
    some (c.toNat - 'a'.toNat + 10)
  else if 'A'.toUInt8 ≤ c ∧ c ≤ 'Z'.toUInt8 then
    some (c.toNat - 'A'.toNat + 10)
  else none

/-- The loop over the initial whitespace. -/
def skipBlanks : List UInt8 → List UInt8
  | [] => []
  | c :: s =>
      if c = ' '.toUInt8 ∨ c = '\t'.toUInt8 then skipBlanks s else c :: s

/-- The optional sign: whether it is a minus. -/
def readSign (s : List UInt8) : Bool × List UInt8 :=
  if charAt s = '+'.toUInt8 then (false, s.tail)
  else if charAt s = '-'.toUInt8 then (true, s.tail)
  else (false, s)

/-- The optional prefix: the base it leaves. -/
def readPrefix (base : Nat) (s : List UInt8) : Nat × List UInt8 :=
  if (base = 0 ∨ base = 16) ∧ charAt s = '0'.toUInt8
      ∧ charAt s.tail = 'x'.toUInt8 then
    (16, s.tail.tail)
  else if base = 0 ∧ charAt s = '0'.toUInt8 then (8, s.tail)
  else if base = 0 then (10, s)
  else (base, s)

/-- The loop over the digits. -/
def readDigits (base : Nat) : List UInt8 → BitVec 64 → BitVec 64 × List UInt8
  | [], val => (val, [])
  | c :: s, val =>
      match digitOf c with
      | none => (val, c :: s)
      | some dig =>
          if base ≤ dig then (val, c :: s)
          else readDigits base s
            (val * BitVec.ofNat 64 base + BitVec.ofNat 64 dig)

/-- `strtol`: the number, and what `endptr` points at. -/
def strtol (s : List UInt8) (base : Nat) : BitVec 64 × List UInt8 :=
  let (neg, s) := readSign (skipBlanks s)
  let (base, s) := readPrefix base s
  let (val, s) := readDigits base s 0
  (if neg = true then -val else val, s)

end Ucore
