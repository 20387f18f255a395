/-
kern/mm/buddy_pmm.c of lab2: the buddy allocator, and its calls.

Pages are numbered by their page frame. The page descriptors before and
after those of the managed region have contents too: the buddy of a block
may lie there. `touched` is not in the source: it records the pages whose
`PG_property` these functions have written, and no function reads it.
-/
import Ucore.Lib.Run
import Ucore.Libs.List
import Mathlib.Data.Nat.Log
import Mathlib.Algebra.Group.Nat.Defs

namespace Ucore.Buddy

open Ring

/-- What `struct Page` keeps for the allocator, less its link. -/
structure Page where
  /-- The bit `PG_property` of `flags`. -/
  pgProperty : Bool
  property : Nat
  deriving DecidableEq

/-- List entries: the head of each `buddy_free_area[i].free_list`, and the
link of each page. -/
inductive Entry where
  | freeList (order : Nat)
  | pageLink (page : Nat)
  deriving DecidableEq

/-- `MAX_ORDER`. -/
def maxOrder : Nat := 10

/-- The page descriptors and `buddy_free_area`. -/
structure State where
  pages : Nat → Page
  links : Links Entry
  nrFree : Nat → BitVec 32
  npage : Nat
  touched : Nat → Bool

-- ================================================== page descriptors

/-- Store a page descriptor. -/
def State.setPage (s : State) (p : Nat) (pg : Page) : State :=
  { s with pages := Function.update s.pages p pg }

/-- `SetPageProperty` and `ClearPageProperty`. -/
def State.setPgProperty (s : State) (p : Nat) (v : Bool) : State :=
  { s.setPage p { s.pages p with pgProperty := v } with
    touched := Function.update s.touched p true }

/-- `p->property = n`. -/
def State.setProperty (s : State) (p n : Nat) : State :=
  s.setPage p { s.pages p with property := n % 2 ^ 32 }

/-- `list_add` to a free list, and `nr_free++`. -/
def State.addFree (s : State) (order p : Nat) : State :=
  { s with
    links := listAdd s.links (.freeList order) (.pageLink p)
    nrFree := Function.update s.nrFree order (s.nrFree order + 1) }

-- ===================================================== the functions

/-- `buddy_init`. -/
def buddyInit (s : State) : State :=
  (List.range (maxOrder + 1)).foldl
    (fun s i => { s with
      links := listInit s.links (.freeList i)
      nrFree := Function.update s.nrFree i 0 }) s

/-- The loop of `buddy_init_memmap`. -/
def memmapOrder (n : Nat) : (order : Nat) → Nat
  | 0 => 0
  | order + 1 => if n < 2 ^ (order + 1) then memmapOrder n order else order + 1

/-- `buddy_init_memmap`. -/
def buddyInitMemmap (s : State) (base n : Nat) : Option State :=
  if 0 < n then
    let order := memmapOrder n maxOrder
    let s := { s with
      links := listAdd s.links (.freeList order) (.pageLink base) }
    let s := s.setProperty base (2 ^ order)
    let s := s.setPgProperty base true
    some { s with
      nrFree := Function.update s.nrFree order (s.nrFree order + 1) }
  else none

/-- The loop that finds the order of a request: `n` rounds are enough. -/
def orderLoop (n : Nat) : (fuel order : Nat) → Nat
  | 0, order => order
  | fuel + 1, order =>
      if 2 ^ order < n then orderLoop n fuel (order + 1) else order

/-- The order of a request. -/
def orderOf (n : Nat) : Nat := orderLoop n n 0

/-- The splitting loop of `buddy_alloc_pages`, down from `current`. -/
def splitLoop (order page : Nat) : (current : Nat) → State → State
  | 0, s => s
  | current + 1, s =>
      if order < current + 1 then
        let buddy := page + 2 ^ current
        let s := s.setProperty buddy (2 ^ current)
        let s := s.setPgProperty buddy true
        splitLoop order page current (s.addFree current buddy)
      else s

/-- `le2page`. -/
def le2page : Entry → Option Nat
  | .pageLink p => some p
  | .freeList _ => none

/-- The search of `buddy_alloc_pages`: the loop over the orders left. -/
def allocLoop (order n : Nat) : (left current : Nat) → State →
    Option (Option Nat × State)
  | 0, _, s => some (none, s)
  | left + 1, current, s =>
      if listEmpty s.links (.freeList current) then
        allocLoop order n left (current + 1) s
      else
        let le := listNext s.links (.freeList current)
        match le2page le with
        | none => none
        | some page =>
            let s := { s with
              links := listDel s.links le
              nrFree :=
                Function.update s.nrFree current (s.nrFree current - 1) }
            let s := splitLoop order page current s
            let s := s.setPgProperty page false
            some (some page, s.setProperty page n)

/-- `buddy_alloc_pages`. -/
def buddyAllocPages (n : Nat) (s : State) : Option (Option Nat × State) :=
  let order := orderOf n
  if maxOrder < order then some (none, s)
  else allocLoop order n (maxOrder + 1 - order) order s

/-- The page descriptor of the page that is the buddy of `base`: the address
of the one differs from that of the other in one bit. -/
def buddyOf (base order : Nat) : Nat := base ^^^ 2 ^ order

/-- The merging loop of `buddy_free_pages`. `pa2page` panics past the last
page, before the loop compares the address with it. -/
def mergeLoop : (left order base : Nat) → State →
    Option (State × Nat × Nat)
  | 0, order, base, s => some (s, base, order)
  | left + 1, order, base, s =>
      let buddy := buddyOf base order
      if s.npage ≤ buddy then none
      else if (s.pages buddy).pgProperty
          ∧ (s.pages buddy).property = 2 ^ order then
        let s := { s with links := listDel s.links (.pageLink buddy) }
        let s := s.setPgProperty buddy false
        mergeLoop left (order + 1) (if base < buddy then base else buddy) s
      else some (s, base, order)

/-- `buddy_free_pages`. A block past `MAX_ORDER` has no free list. -/
def buddyFreePages (base n : Nat) (s : State) : Option State :=
  let order := orderOf n
  if (s.pages base).pgProperty then some s
  else
    let s := s.setProperty base (2 ^ order)
    let s := s.setPgProperty base true
    match mergeLoop (maxOrder + 1 - order) order base s with
    | none => none
    | some (s, base, order) =>
        if maxOrder < order then none else some (s.addFree order base)

/-- `buddy_nr_free_pages`: products are `unsigned int`, the sum `size_t`. -/
def buddyNrFreePages (s : State) : Nat :=
  (List.range (maxOrder + 1)).foldl
    (fun total i => (total + (s.nrFree i).toNat * 2 ^ i % 2 ^ 32) % 2 ^ 64) 0

-- ========================================================= the calls

/-- The allocator, and for each page the request whose block starts there and
is allocated. -/
structure World where
  state : State
  held : Nat → Option Nat

/-- A call and what it returns. -/
inductive Label where
  | alloc (n : Nat) (r : Option Nat)
  | free (base n : Nat)
  deriving DecidableEq

/-- The requests after a call to `buddy_alloc_pages`. -/
def hold (held : Nat → Option Nat) (n : Nat) :
    (r : Option Nat) → Nat → Option Nat
  | some p => Function.update held p (some n)
  | none => held

/-- A request is for 1 to 1024 pages, and a block is freed with the number of
pages it was asked for with. -/
inductive Step : World → Label → World → Prop
  | alloc {w : World} {n : Nat} {r : Option Nat} {s : State}
      (hpos : 1 ≤ n) (hmax : n ≤ 1024)
      (hcall : buddyAllocPages n w.state = some (r, s)) :
      Step w (.alloc n r)
        { state := s, held := hold w.held n r }
  | free {w : World} {base n : Nat} {s : State}
      (hheld : w.held base = some n)
      (hcall : buddyFreePages base n w.state = some s) :
      Step w (.free base n)
        { state := s, held := Function.update w.held base none }

/-- A region of `n` pages from `base` has been handed to the allocator. -/
structure Handed (base n : Nat) (w : World) : Prop where
  init : ∃ s, (∀ p, s.touched p = false)
    ∧ buddyInitMemmap (buddyInit s) base n = some w.state
  held : ∀ p, w.held p = none

/-- A region of `n` pages from `base` has been handed to the allocator; no
page outside it has `PG_property` set. -/
structure Start (base n : Nat) (w : World) : Prop where
  init : ∃ s, (∀ p, s.touched p = false)
    ∧ (∀ p, (s.pages p).pgProperty = true → base ≤ p ∧ p < base + n)
    ∧ buddyInitMemmap (buddyInit s) base n = some w.state
  held : ∀ p, w.held p = none

-- ============================================= the buddies looked at

/-- The first page of the block that the merging loop has put together after
`rounds` rounds from `base`. -/
def mergedBase (base order : Nat) : (rounds : Nat) → Nat
  | 0 => base
  | rounds + 1 =>
      let base' := mergedBase base order rounds
      let buddy := buddyOf base' (order + rounds)
      if base' < buddy then base' else buddy

/-- The buddy that round `rounds` looks at is marked as a free block of the
same order. -/
def Matches (s : State) (base order rounds : Nat) : Prop :=
  let buddy := buddyOf (mergedBase base order rounds) (order + rounds)
  (s.pages buddy).pgProperty = true
    ∧ (s.pages buddy).property = 2 ^ (order + rounds)

/-- No buddy that the merging loop finds free owes its `PG_property` to the
time before the region was handed over. -/
def MeetsTouched (s : State) (base n : Nat) : Prop :=
  ∀ rounds, orderOf n + rounds ≤ maxOrder →
    (∀ i, i ≤ rounds → Matches s base (orderOf n) i) →
    s.touched (buddyOf (mergedBase base (orderOf n) rounds)
      (orderOf n + rounds)) = true

/-- A call that meets the condition. -/
def Clean (w : World) : Label → Prop
  | .alloc _ _ => True
  | .free base n => MeetsTouched w.state base n

/-- A step that meets the condition. -/
def CleanStep (w : World) (l : Label) (w' : World) : Prop :=
  Step w l w' ∧ Clean w l

/-- The same, with no page but the first marked before. -/
structure HandedClear (base n : Nat) (w : World) : Prop where
  init : ∃ s, (∀ p, s.touched p = false)
    ∧ (∀ p, p ≠ base → (s.pages p).pgProperty = false)
    ∧ buddyInitMemmap (buddyInit s) base n = some w.state
  held : ∀ p, w.held p = none

-- ================================================== calls that merge

/-- The call is no `buddy_free_pages` that merges. -/
def NoMerge (w : World) : Label → Prop
  | .alloc _ _ => True
  | .free base n => ¬ Matches w.state base (orderOf n) 0

/-- The call does not free the last allocated block while others, split off the
same initial block, are free. -/
def NotInParts (w : World) : Label → Prop
  | .alloc _ _ => True
  | .free base _ => (∀ p, p ≠ base → w.held p = none) →
      ∀ k, k ≤ maxOrder → listEmpty w.state.links (.freeList k) = true

/-- The pages that a request takes. -/
def heldSize (held : Nat → Option Nat) (p : Nat) : Nat :=
  match held p with
  | some n => 2 ^ Nat.clog 2 n
  | none => 0

/-- The free lists are `fl`, and the headers and counters agree with them. -/
structure Represents (s : State) (fl : Nat → List Nat) : Prop where
  rings : Rings s.links {k | k ≤ maxOrder} Entry.freeList
    (fun k => (fl k).map Entry.pageLink)
  deep : ∀ k, maxOrder < k → fl k = []
  listed : ∀ k x, x ∈ fl k →
    (s.pages x).property = 2 ^ k ∧ (s.pages x).pgProperty = true
  nrFree : ∀ k, k ≤ maxOrder → (s.nrFree k).toNat = (fl k).length
  only : ∀ p, (s.pages p).pgProperty = true → ∃ k, p ∈ fl k

/-- The free lists of a region none of which is allocated. -/
def wholeRegion (base n : Nat) : Nat → List Nat :=
  Function.update (fun _ => []) (memmapOrder n maxOrder) [base]

/-- What the free lists are to be in every state. -/
def InStep (base n : Nat) (w : World) : Prop :=
  ∃ fl, Represents w.state fl
    ∧ ((∀ p, w.held p = none) → fl = wholeRegion base n)

-- ===================================================== freeing again

/-- The call to free `n` pages from `base` finds `buddy` free and joins it. -/
def Absorbs (s : State) (base n buddy : Nat) : Prop :=
  (s.pages base).pgProperty = false
    ∧ ∃ rounds, orderOf n + rounds ≤ maxOrder
      ∧ (∀ i, i ≤ rounds → Matches s base (orderOf n) i)
      ∧ buddy = buddyOf (mergedBase base (orderOf n) rounds)
        (orderOf n + rounds)

/-- The calls, and for each page the request whose block starts there, was
freed, and has none of its pages allocated again. -/
structure Tracked where
  world : World
  freed : Nat → Option Nat

/-- A call with what it returns; `again` is a second `buddy_free_pages`. -/
inductive Call where
  | alloc (n : Nat) (r : Option Nat)
  | free (base n : Nat)
  | again (base n : Nat)

/-- The freed blocks once `n` pages have been allocated. -/
def reuse (freed : Nat → Option Nat) (n : Nat) :
    (r : Option Nat) → Nat → Option Nat
  | some p => fun b =>
      (freed b).filter fun m => !decide (b < p + n ∧ p < b + m)
  | none => freed

/-- A block that was freed may be freed again, with the same `n`. -/
inductive TrackedStep : Tracked → Call → Tracked → Prop
  | alloc {t : Tracked} {n : Nat} {r : Option Nat} {w' : World}
      (hstep : Step t.world (.alloc n r) w') :
      TrackedStep t (.alloc n r) { world := w', freed := reuse t.freed n r }
  | free {t : Tracked} {base n : Nat} {w' : World}
      (hstep : Step t.world (.free base n) w') :
      TrackedStep t (.free base n)
        { world := w', freed := Function.update t.freed base (some n) }
  | again {t : Tracked} {base n : Nat} {s : State}
      (hfreed : t.freed base = some n)
      (hcall : buddyFreePages base n t.world.state = some s) :
      TrackedStep t (.again base n)
        { t with world := { t.world with state := s } }

/-- Freeing a freed block again changes nothing. -/
def AgainIsNoOp (t : Tracked) : Prop :=
  ∀ base n, t.freed base = some n →
    buddyFreePages base n t.world.state = some t.world.state

/-- The call joins no freed block to the one it frees. -/
def Spares (t : Tracked) : Call → Prop
  | .alloc _ _ => True
  | .free base n => ∀ buddy, Absorbs t.world.state base n buddy →
      t.freed buddy = none
  | .again _ _ => True

/-- A step whose call joins no freed block. -/
def SparingStep (t : Tracked) (c : Call) (t' : Tracked) : Prop :=
  TrackedStep t c t' ∧ Spares t c

-- ===================================================== running calls

/-- A call, when it can be made and returns what the label says. -/
def call (w : World) : Label → Option World
  | .alloc n r =>
      if 1 ≤ n ∧ n ≤ 1024 then
        match buddyAllocPages n w.state with
        | some (r', s) =>
            if r' = r then some { state := s, held := hold w.held n r }
            else none
        | none => none
      else none
  | .free base n =>
      if w.held base = some n then
        match buddyFreePages base n w.state with
        | some s =>
            some { state := s, held := Function.update w.held base none }
        | none => none
      else none

/-- Calls one after the other. -/
def calls (w : World) : List Label → Option World
  | [] => some w
  | l :: ls =>
      match call w l with
      | some w' => calls w' ls
      | none => none

theorem call_step {w w' : World} {l : Label} (h : call w l = some w') :
    Step w l w' := by
  cases l with
  | alloc n r =>
      simp only [call] at h
      by_cases hn : 1 ≤ n ∧ n ≤ 1024
      · rw [if_pos hn] at h
        cases hcall : buddyAllocPages n w.state with
        | none =>
            rw [hcall] at h
            cases h
        | some rs =>
            rw [hcall] at h
            by_cases hr : rs.1 = r
            · simp only [hr, if_true, Option.some.injEq] at h
              rw [← h]
              exact .alloc hn.1 hn.2 (hr ▸ hcall)
            · simp only [hr, if_false] at h
              cases h
      · rw [if_neg hn] at h
        cases h
  | free base n =>
      simp only [call] at h
      by_cases hn : w.held base = some n
      · rw [if_pos hn] at h
        cases hcall : buddyFreePages base n w.state with
        | none =>
            rw [hcall] at h
            cases h
        | some s =>
            rw [hcall] at h
            cases h
            exact .free hn hcall
      · rw [if_neg hn] at h
        cases h

theorem calls_run {w w' : World} {ls : List Label}
    (h : calls w ls = some w') : Run Step w ls w' := by
  induction ls generalizing w with
  | nil =>
      cases h
      exact .nil _
  | cons l ls ih =>
      unfold calls at h
      cases hcall : call w l with
      | none =>
          rw [hcall] at h
          cases h
      | some w₁ =>
          rw [hcall] at h
          exact .cons (call_step hcall) (ih h)

end Ucore.Buddy
