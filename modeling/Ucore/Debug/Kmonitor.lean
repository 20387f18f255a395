/-
kern/debug/kmonitor.c: the commands of the kernel monitor.

`parse` scans its line in memory and writes to it. `argv` is the list of the
entries that are stored, `argc` of them; the array has `MAXARGS`. What a
store behind it does is not said: `parse` stops there with `outside`. What a
command does is left out.
-/
import Ucore.Lib.Loop
import Ucore.Lib.Runs
import Ucore.Libs.String

namespace Ucore.Kmonitor

open Loop (Round)
open Runs

/-- `MAXARGS`. -/
def maxargs : Nat := 16

/-- `WHITESPACE`. -/
def whitespace : List UInt8 :=
  [' '.toUInt8, '\t'.toUInt8, '\n'.toUInt8, '\r'.toUInt8]

-- ============================================================= parse

/-- The inner loop `parse` is in: over whitespace, or over an argument. -/
inductive Place where
  | blanks
  | word
deriving DecidableEq

/-- The variables of `parse`, with the memory and what is printed. -/
structure Parse where
  mem : Nat → UInt8
  buf : Nat
  argv : List Nat
  printed : List String
  place : Place

/-- What `parse` comes to. -/
inductive Parsed where
  | returned (argv : List Nat) (mem : Nat → UInt8) (printed : List String)
  | outside

/-- The message of `parse`. -/
def tooMany : String := "Too many arguments (max 16).\n"

/-- The next test in `parse`, and what is done after it. -/
def round (st : Parse) : Round Parse Parsed :=
  let c := st.mem st.buf
  match st.place with
  | .blanks =>
      if c ≠ 0 ∧ strchr whitespace c ≠ none then
        .again { st with
          mem := Function.update st.mem st.buf 0, buf := st.buf + 1 }
      else if c = 0 then .stop (.returned st.argv st.mem st.printed)
      else
        let printed :=
          if st.argv.length = maxargs - 1 then st.printed ++ [tooMany]
          else st.printed
        if st.argv.length < maxargs then
          .again { st with argv := st.argv ++ [st.buf], printed, place := .word }
        else .stop .outside
  | .word =>
      if c ≠ 0 ∧ strchr whitespace c = none then
        .again { st with buf := st.buf + 1 }
      else .again { st with place := .blanks }

/-- `parse`, given some number of rounds. -/
def parse (rounds : Nat) (mem : Nat → UInt8) (buf : Nat) : Option Parsed :=
  Loop.run round rounds { mem, buf, argv := [], printed := [], place := .blanks }

-- ============================================================ runcmd

inductive Command where
  | monHelp
  | monKerninfo
  | monBacktrace

/-- `commands`: the names and the functions. -/
def commands : List (List UInt8 × Command) :=
  [("help".toList.map Char.toUInt8, .monHelp),
   ("kerninfo".toList.map Char.toUInt8, .monKerninfo),
   ("backtrace".toList.map Char.toUInt8, .monBacktrace)]

/-- What `runcmd` comes to: a call of a function with arguments, or a message
about a name that is no command. -/
inductive Ran where
  | nothing
  | invoked (func : Command) (argv : List Nat) (mem : Nat → UInt8)
  | unknown (name : Nat)
  | outside

/-- The end of `runcmd`, with the entry of `commands` that its loop found. -/
def invoke (mem : Nat → UInt8) (name : Nat) (args : List Nat) :
    Option (List UInt8 × Command) → Ran
  | some command => .invoked command.2 args mem
  | none => .unknown name

/-- `runcmd`. -/
def runcmd (rounds : Nat) (mem : Nat → UInt8) (buf : Nat) : Option Ran :=
  (parse rounds mem buf).map fun
    | .outside => .outside
    | .returned [] _ _ => .nothing
    | .returned (name :: args) mem _ =>
        invoke mem name args
          (commands.find? fun command => strcmp mem command.1 name = 0)

-- ========================================================= the words

/-- A character of a word of the line. -/
def InWord (line : List UInt8) (i : Nat) : Prop :=
  i < line.length ∧ line.getD i 0 ∉ whitespace

instance (line : List UInt8) : DecidablePred (InWord line) := fun i =>
  inferInstanceAs (Decidable (i < line.length ∧ line.getD i 0 ∉ whitespace))

/-- Where the words of the line start. -/
def wordStarts (line : List UInt8) : List Nat :=
  positions (Starts (InWord line)) line.length

/-- `argv` is the first words of the line, and they are strings. -/
structure FirstWords (line : List UInt8) (a : Nat) (argv : List Nat)
    (mem : Nat → UInt8) : Prop where
  starts : argv = ((wordStarts line).take argv.length).map (a + ·)
  words : ∀ i ∈ (wordStarts line).take argv.length, ∃ j,
    MaxRun (InWord line) i j ∧ StringAt mem (a + i) (line.extract i j)

/-- `parse` returns within its array, with the first words of the line. -/
def ParsesWithin (mem : Nat → UInt8) (a : Nat) (line : List UInt8) : Prop :=
  ∃ rounds argv mem' printed,
    parse rounds mem a = some (.returned argv mem' printed)
      ∧ argv.length ≤ maxargs ∧ FirstWords line a argv mem'

end Ucore.Kmonitor
