/-
lab3 kern/mm/swap_clock.c: the page replacement algorithm that clears the
`visited` flags on its way around the list `pra_list_head`.
-/
import Ucore.Lib.Loop
import Ucore.Swap.Manager
import Mathlib.Logic.Function.Iterate

namespace Ucore.Swap

open Ucore.Ring
open Ucore.Loop (Round)

/-- What the algorithm reads and writes. -/
structure Clock where
  links : Links Link
  /-- `page->visited`. -/
  visited : Nat → Nat
  /-- `curr_ptr`. -/
  currPtr : Link

/-- `_clock_init_mm`: `&pra_list_head`, after `list_init`. -/
def clockInitMm : Call Clock Link := do
  Call.modify fun s => { s with
    links := listInit s.links .praListHead
    currPtr := .praListHead }
  pure .praListHead

/-- `_clock_map_swappable`. -/
def clockMapSwappable (mm : MmStruct) (page : Nat) : Call Clock Unit := do
  let head ← Call.ofOption mm.smPriv
  Call.modify fun s => { s with
    links := listAdd s.links head (.page page)
    visited := Function.update s.visited page 1 }

/-- A round of the loop of `_clock_swap_out_victim`. It goes wrong at an entry
that lies in no page. -/
def clockRound (head : Link) (s : Clock) :
    Round Clock (Option (Nat × Clock)) :=
  if s.currPtr = head then
    .again { s with currPtr := listPrev s.links s.currPtr }
  else
    match le2page s.currPtr with
    | none => .stop none
    | some currPage =>
        if s.visited currPage = 0 then
          let currPtr := listPrev s.links s.currPtr
          .stop (some (currPage, { s with
            links := listDel s.links (listNext s.links currPtr)
            currPtr := currPtr }))
        else
          .again { s with
            visited := Function.update s.visited currPage 0
            currPtr := listPrev s.links s.currPtr }

/-- `_clock_swap_out_victim`, if its loop ends within the rounds. -/
def clockSwapOutVictim (rounds : Nat) (mm : MmStruct) (inTick : Nat) :
    Call Clock Nat := do
  let head ← Call.ofOption mm.smPriv
  Call.assert (inTick = 0)
  fun s => (Loop.run (clockRound head) rounds s).join

-- ========================================================== the hand

/-- The entry the hand is at after `i` moves. -/
def Clock.handAt (s : Clock) (i : Nat) : Link :=
  (listPrev s.links)^[i] s.currPtr

/-- The hand has been at the page in one of its first `i` places. -/
def Clock.Passed (s : Clock) (i page : Nat) : Prop :=
  ∃ j, j < i ∧ s.handAt j = .page page

instance (s : Clock) (i page : Nat) : Decidable (s.Passed i page) :=
  inferInstanceAs (Decidable (∃ j, j < i ∧ _))

/-- The flag of a page after `i` moves: it is clear if the hand passed it. -/
def Clock.flagAt (s : Clock) (i page : Nat) : Nat :=
  if s.Passed i page then 0 else s.visited page

end Ucore.Swap
