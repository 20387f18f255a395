/-
kern/driver/console.c: the characters that come from the serial port wait in
a circular buffer until `cons_getc` fetches them.

What `proc` of `cons_intr` returns, call by call until it returns -1, is a
list of characters.
-/
import Ucore.Lib.Fifo

namespace Ucore.Driver

/-- `CONSBUFSIZE`. -/
def consbufsize : Nat := 512

/-- `cons`. -/
structure Cons where
  buf : Nat → UInt8
  rpos : Nat
  wpos : Nat

/-- A static object starts with zeros. -/
def consStart : Cons where
  buf _ := 0
  rpos := 0
  wpos := 0

/-- A round of the loop of `cons_intr`. -/
def consPut (cons : Cons) (c : UInt8) : Cons :=
  if c ≠ 0 then
    let cons := { cons with
      buf := Function.update cons.buf cons.wpos c
      wpos := cons.wpos + 1 }
    if cons.wpos = consbufsize then { cons with wpos := 0 } else cons
  else cons

/-- `cons_intr`. -/
def consIntr (cons : Cons) (chars : List UInt8) : Cons :=
  chars.foldl consPut cons

/-- `serial_proc_data`, of a character that waits at the port. -/
def serialProcData (c : UInt8) : UInt8 := if c = 127 then 8 else c

/-- `serial_intr`. -/
def serialIntr (cons : Cons) (port : List UInt8) : Cons :=
  consIntr cons (port.map serialProcData)

/-- `cons_getc`, with what waits at the port. -/
def consGetc (cons : Cons) (port : List UInt8) : UInt8 × Cons :=
  let cons := serialIntr cons port
  if cons.rpos ≠ cons.wpos then
    let c := cons.buf cons.rpos
    let cons := { cons with rpos := cons.rpos + 1 }
    if cons.rpos = consbufsize then (c, { cons with rpos := 0 }) else (c, cons)
  else (0, cons)

-- ========================================================= the calls

/-- A call, with the characters that `proc` returns in it. -/
inductive ConsCall where
  | intr (chars : List UInt8)
  | getc (port : List UInt8)

/-- What `cons_getc` returns, and the state after the call. -/
def consCall (cons : Cons) : ConsCall → Option UInt8 × Cons
  | .intr chars => (none, consIntr cons chars)
  | .getc port => (some (consGetc cons port).1, (consGetc cons port).2)

/-- The characters that are not zero. -/
def nonzero (chars : List UInt8) : List UInt8 := chars.filter (· ≠ 0)

/-- The characters other than zero that a call feeds. -/
def ConsCall.fed : ConsCall → List UInt8
  | .intr chars => nonzero chars
  | .getc port => nonzero (port.map serialProcData)

/-- A call as a user of the buffer sees it. -/
def consEvents (call : ConsCall) (c : Option UInt8) : List (FifoEvent UInt8) :=
  puts call.fed ++ takes (nonzero c.toList)

/-- How many characters there are between the two positions. -/
def Cons.count (cons : Cons) : Nat :=
  (cons.wpos + consbufsize - cons.rpos) % consbufsize

/-- The characters that `cons_getc` has still to return. -/
def Cons.unread (cons : Cons) : List UInt8 :=
  window consbufsize cons.buf cons.rpos cons.count

/-- The calls return the fed characters in order, each once, and leave the
rest unread; only a character that comes when `CONSBUFSIZE` are unread is
lost. -/
def InOrder (calls : List ConsCall) : Prop :=
  accepts (fifo consbufsize) [] (trace consCall consEvents consStart calls)
    = some (stateAfter consCall consStart calls).unread

end Ucore.Driver
