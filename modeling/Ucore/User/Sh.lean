/-
user/sh.c: the tokens of a command line.

`gettoken` carves them out of the line in memory: it overwrites what
separates them, and so ends a word only when it is called again. A quote
character is overwritten by a blank.
-/
import Ucore.Lib.Loop
import Ucore.Lib.Runs
import Ucore.Libs.String

namespace Ucore.Sh

open Loop (Round)
open Runs

/-- `WHITESPACE`. -/
def whitespace : List UInt8 :=
  [' '.toUInt8, '\t'.toUInt8, '\r'.toUInt8, '\n'.toUInt8]

/-- `SYMBOLS`. -/
def symbols : List UInt8 :=
  ['<'.toUInt8, '|'.toUInt8, '>'.toUInt8, '&'.toUInt8, ';'.toUInt8]

/-- The quote character. -/
def quote : UInt8 := 0x22

-- ========================================================== gettoken

/-- Where `gettoken` is: in the loop over whitespace, or in the loop over the
word at `p2`, with `flag`. -/
inductive Place where
  | blanks
  | word (p2 : Nat) (flag : Bool)

/-- The variables of `gettoken`, with the memory. -/
structure Scan where
  mem : Nat → UInt8
  s : Nat
  place : Place

/-- What a call leaves: `*p1`, which may be `NULL`, and the token it returns
with `*p2`, or no token. -/
structure Got where
  mem : Nat → UInt8
  p1 : Option Nat
  token : Option (UInt8 × Nat)

/-- The end of `gettoken`. -/
def gotten (mem : Nat → UInt8) (s : Nat) (token : UInt8) (p2 : Nat) : Got where
  mem
  p1 := if mem s ≠ 0 then some s else none
  token := some (token, p2)

/-- The next test in `gettoken`, and what is done after it. -/
def round (p1 : Nat) (sc : Scan) : Round Scan Got :=
  let c := sc.mem sc.s
  match sc.place with
  | .blanks =>
      if strchr whitespace c ≠ none then
        .again { sc with mem := Function.update sc.mem sc.s 0, s := sc.s + 1 }
      else if c = 0 then .stop { mem := sc.mem, p1 := some p1, token := none }
      else if strchr symbols c ≠ none then
        .stop (gotten (Function.update sc.mem sc.s 0) (sc.s + 1) c sc.s)
      else .again { sc with place := .word sc.s false }
  | .word p2 flag =>
      if c ≠ 0 ∧ (flag = true ∨ strchr (whitespace ++ symbols) c = none) then
        if c = quote then
          .again {
            mem := Function.update sc.mem sc.s ' '.toUInt8
            s := sc.s + 1
            place := .word p2 !flag }
        else .again { sc with s := sc.s + 1 }
      else .stop (gotten sc.mem sc.s 'w'.toUInt8 p2)

/-- `gettoken`, given some number of rounds. -/
def gettoken (rounds : Nat) (mem : Nat → UInt8) : (p1 : Option Nat) → Option Got
  | none => some { mem, p1 := none, token := none }
  | some s => Loop.run (round s) rounds { mem, s, place := .blanks }

/-- Calls of `gettoken` until there is no token. -/
def tokens (rounds : Nat) :
    (calls : Nat) → (mem : Nat → UInt8) → (p1 : Option Nat) →
      Option (List (UInt8 × Nat) × (Nat → UInt8))
  | 0, _, _ => none
  | calls + 1, mem, p1 =>
      (gettoken rounds mem p1).bind fun got =>
        match got.token with
        | none => some ([], got.mem)
        | some token =>
            (tokens rounds calls got.mem got.p1).map fun rest =>
              (token :: rest.1, rest.2)

-- ======================================================== the tokens

/-- A position inside of double quotes: after an odd number of them. -/
def Quoted (line : List UInt8) (i : Nat) : Prop :=
  (line.take i).count quote % 2 = 1

instance (line : List UInt8) : DecidablePred (Quoted line) := fun i =>
  inferInstanceAs (Decidable ((line.take i).count quote % 2 = 1))

/-- A character of a word: neither blank nor symbol, or inside of quotes. -/
def InWord (line : List UInt8) (i : Nat) : Prop :=
  i < line.length ∧ (Quoted line i ∨ line.getD i 0 ∉ whitespace ++ symbols)

instance (line : List UInt8) : DecidablePred (InWord line) := fun i =>
  inferInstanceAs (Decidable
    (i < line.length ∧ (Quoted line i ∨ line.getD i 0 ∉ whitespace ++ symbols)))

/-- A symbol outside of quotes. -/
def IsSymbol (line : List UInt8) (i : Nat) : Prop :=
  ¬ Quoted line i ∧ line.getD i 0 ∈ symbols

instance (line : List UInt8) : DecidablePred (IsSymbol line) := fun i =>
  inferInstanceAs (Decidable (¬ Quoted line i ∧ line.getD i 0 ∈ symbols))

/-- A token starts: a symbol, or a maximal run of characters of a word. -/
def TokenAt (line : List UInt8) (i : Nat) : Prop :=
  IsSymbol line i ∨ Starts (InWord line) i

instance (line : List UInt8) : DecidablePred (TokenAt line) := fun i =>
  inferInstanceAs (Decidable (IsSymbol line i ∨ Starts (InWord line) i))

/-- The token that starts there, in a line at `a`. -/
def tokenOf (line : List UInt8) (a i : Nat) : UInt8 × Nat :=
  (if IsSymbol line i then line.getD i 0 else 'w'.toUInt8, a + i)

/-- The tokens of a line. -/
def tokensOf (line : List UInt8) (a : Nat) : List (UInt8 × Nat) :=
  (positions (TokenAt line) line.length).map (tokenOf line a)

/-- A word without its quote characters. -/
def removed (word : List UInt8) : List UInt8 := word.filter fun c => c ≠ quote

/-- A word with blanks for them. -/
def blanked (word : List UInt8) : List UInt8 :=
  word.map fun c => if c = quote then ' '.toUInt8 else c

/-- The calls of `gettoken` come to an end with the tokens of the line, and
leave each word as a string, from which the quote characters are taken. -/
def Delivers (strip : List UInt8 → List UInt8) (mem : Nat → UInt8) (a : Nat)
    (line : List UInt8) : Prop :=
  ∃ rounds calls mem', tokens rounds calls mem (some a) = some (tokensOf line a, mem')
    ∧ ∀ i, Starts (InWord line) i → ∃ j, MaxRun (InWord line) i j
      ∧ StringAt mem' (a + i) (strip (line.extract i j))

end Ucore.Sh
