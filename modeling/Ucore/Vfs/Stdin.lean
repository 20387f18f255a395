/-
kern/fs/devs/dev_stdin.c: the characters of the keyboard wait in a buffer
until a process reads them.

Interrupts are disabled, so a process runs through `dev_stdin_read` until it
returns or sleeps. What it needs to go on is kept: the loop variables and its
`wait_t`. The positions are not bounded.
-/
import Ucore.Lib.Fifo

namespace Ucore.Vfs

/-- `STDIN_BUFSIZE`. -/
def stdinBufsize : Nat := 4096

/-- `wakeup_flags`: `WT_INTERRUPTED` or `WT_KBD`. -/
inductive WakeupFlags where
  | interrupted
  | kbd
deriving DecidableEq

/-- A process that sleeps in `dev_stdin_read`, with `len - ret`. -/
structure StdinWait where
  ret : Nat
  left : Nat
  queued : Bool
  wakeupFlags : WakeupFlags
  runnable : Bool

variable {ν : Type}

/-- The buffer with its positions, and the processes that sleep. -/
structure Stdin (ν : Type) where
  stdinBuffer : Nat → UInt8
  pRpos : Nat
  pWpos : Nat
  waits : ν → Option StdinWait

/-- After `stdin_device_init`. -/
def stdinStart : Stdin ν where
  stdinBuffer _ := 0
  pRpos := 0
  pWpos := 0
  waits _ := none

/-- `wakeup_queue(wait_queue, WT_KBD, 1)`, of one process. -/
def StdinWait.wakeup (wait : StdinWait) : StdinWait :=
  if wait.queued then
    { wait with queued := false, wakeupFlags := .kbd, runnable := true }
  else wait

/-- `dev_stdin_write`. -/
def devStdinWrite (s : Stdin ν) (c : UInt8) : Stdin ν :=
  if c ≠ 0 then
    { s with
      stdinBuffer := Function.update s.stdinBuffer (s.pWpos % stdinBufsize) c
      pWpos := if s.pWpos - s.pRpos < stdinBufsize then s.pWpos + 1 else s.pWpos
      waits := fun i => (s.waits i).map StdinWait.wakeup }
  else s

/-- The loop of `dev_stdin_read` up to the end or an empty buffer: what is
read, and how much is left to read. -/
def devStdinReadLoop : (left : Nat) → Stdin ν → List UInt8 × Nat × Stdin ν
  | 0, s => ([], 0, s)
  | left + 1, s =>
      if s.pRpos < s.pWpos then
        let c := s.stdinBuffer (s.pRpos % stdinBufsize)
        let (cs, rest, s') :=
          devStdinReadLoop left { s with pRpos := s.pRpos + 1 }
        (c :: cs, rest, s')
      else ([], left + 1, s)

section Calls

variable [DecidableEq ν]

/-- What a process has read until it returned, which it does with a count, or
went to sleep. -/
structure StdinReply where
  got : List UInt8
  returns : Option Nat

/-- `dev_stdin_read` from the loop on: the process returns or sleeps. -/
def devStdinReadOn (s : Stdin ν) (i : ν) (ret left : Nat) :
    StdinReply × Stdin ν :=
  let (cs, rest, s) := devStdinReadLoop left s
  let ret := ret + cs.length
  if rest = 0 then
    (⟨cs, some ret⟩, { s with waits := Function.update s.waits i none })
  else
    (⟨cs, none⟩, { s with
      waits := Function.update s.waits i (some
        { ret := ret, left := rest, queued := true,
          wakeupFlags := .interrupted, runnable := false }) })

/-- A character comes, a process calls `dev_stdin_read`, a process that sleeps
there is killed, and one that was woken up goes on. -/
inductive StdinCall (ν : Type) where
  | write (c : UInt8)
  | read (i : ν) (len : Nat)
  | kill (i : ν)
  | resume (i : ν)

/-- What happens. A process in a read makes no other, and one that was not
woken up does not go on. -/
def stdinCall (s : Stdin ν) : StdinCall ν → StdinReply × Stdin ν
  | .write c => (⟨[], none⟩, devStdinWrite s c)
  | .read i len =>
      match s.waits i with
      | none => devStdinReadOn s i 0 len
      | some _ => (⟨[], none⟩, s)
  | .kill i =>
      match s.waits i with
      | none => (⟨[], none⟩, s)
      | some wait => (⟨[], none⟩, { s with
          waits := Function.update s.waits i (some
            { wait with runnable := true }) })
  | .resume i =>
      match s.waits i with
      | none => (⟨[], none⟩, s)
      | some wait =>
          if wait.runnable then
            if wait.wakeupFlags = .kbd then
              devStdinReadOn s i wait.ret wait.left
            else
              (⟨[], some wait.ret⟩,
                { s with waits := Function.update s.waits i none })
          else (⟨[], none⟩, s)

/-- A call as the users of the buffer see it. -/
def stdinEvents : StdinCall ν → StdinReply → List (FifoEvent UInt8)
  | .write c, _ => puts (if c ≠ 0 then [c] else [])
  | .read _ _, r => takes r.got
  | .kill _, r => takes r.got
  | .resume _, r => takes r.got

/-- The characters that are still to be read. -/
def Stdin.pending (s : Stdin ν) : List UInt8 :=
  window stdinBufsize s.stdinBuffer s.pRpos (s.pWpos - s.pRpos)

/-- The readers together get the characters in order, each once, and the rest
is pending; a character is dropped only when `STDIN_BUFSIZE` are, and changes
none of them. -/
def StdinInOrder (calls : List (StdinCall ν)) : Prop :=
  accepts (fifo stdinBufsize) [] (trace stdinCall stdinEvents stdinStart calls)
    = some (stateAfter stdinCall stdinStart calls).pending

/-- What comes to a full buffer is the character that has waited longest. -/
def Harmless (s : Stdin ν) : StdinCall ν → Prop
  | .write c => c ≠ 0 → s.pending.length = stdinBufsize →
      s.pending.head? = some c
  | _ => True

end Calls

end Ucore.Vfs
