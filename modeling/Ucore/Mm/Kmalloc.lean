/-
kern/mm/kmalloc.c: the SLOB heap, and its calls.

An address is a number of bytes. What `alloc_pages` returns is given with
each call, in order; a call that asks for more pages than are given has no
result. `slob_alloc` is called with `align` 0 only, which leaves `delta` 0.
The loops walk the free list, which nothing in the code bounds: they take
fuel, and without enough of it there is no result.
-/
import Mathlib.Logic.Function.Iterate
import Ucore.Lib.Extents
import Ucore.Lib.Run

namespace Ucore.Slob

/-- `sizeof(slob_t)`. -/
def slobUnit : Nat := 16

/-- `PAGE_SIZE`. -/
def pageSize : Nat := 4096

/-- `SLOB_UNITS`. -/
def slobUnits (size : Nat) : Nat := (size + slobUnit - 1) / slobUnit

/-- A `bigblock_t`, and where it lies. -/
structure Bigblock where
  addr : Nat
  order : Nat
  pages : Nat
  deriving DecidableEq

/-- The `slob_t` at each address, and the variables of the allocator. -/
structure State where
  units : Nat → Nat
  next : Nat → Nat
  slobfree : Nat
  bigblocks : List Bigblock

/-- `b->units = n`. -/
def State.setUnits (s : State) (b n : Nat) : State :=
  { s with units := Function.update s.units b n }

/-- `b->next = c`. -/
def State.setNext (s : State) (b c : Nat) : State :=
  { s with next := Function.update s.next b c }

-- ======================================================= giving back

/-- The condition under which the loop of `slob_free` goes on at `cur`. -/
def beyond (b cur next : Nat) : Prop :=
  ¬ (cur < b ∧ b < next) ∧ ¬ (next ≤ cur ∧ (cur < b ∨ b < next))

instance (b cur next : Nat) : Decidable (beyond b cur next) := by
  unfold beyond
  infer_instance

/-- The loop of `slob_free`: the reinsertion point. -/
def findPoint (s : State) (b : Nat) : (fuel cur : Nat) → Option Nat
  | 0, _ => none
  | fuel + 1, cur =>
      if beyond b cur (s.next cur) then findPoint s b fuel (s.next cur)
      else some cur

/-- `slob_free` after the search. -/
def joinBlock (b cur : Nat) (s : State) : State :=
  let s :=
    if b + s.units b * slobUnit = s.next cur then
      let n := s.next cur
      (s.setUnits b (s.units b + s.units n)).setNext b (s.next n)
    else s.setNext b (s.next cur)
  let s :=
    if cur + s.units cur * slobUnit = b then
      (s.setUnits cur (s.units cur + s.units b)).setNext cur (s.next b)
    else s.setNext cur b
  { s with slobfree := cur }

/-- `slob_free`. -/
def slobFree (fuel block size : Nat) (s : State) : Option State :=
  if block = 0 then some s
  else
    let s := if size = 0 then s else s.setUnits block (slobUnits size)
    match findPoint s block fuel s.slobfree with
    | none => none
    | some cur => some (joinBlock block cur s)

-- ======================================================== taking out

/-- `slob_alloc` once there is room enough at `cur`. -/
def takeBlock (units prev cur : Nat) (s : State) : State :=
  let s :=
    if s.units cur = units then s.setNext prev (s.next cur)
    else
      let rest := cur + units * slobUnit
      let s := s.setNext prev rest
      let s := s.setUnits rest (s.units cur - units)
      let s := s.setNext rest (s.next cur)
      s.setUnits cur units
  { s with slobfree := prev }

/-- The loop of `slob_alloc`. -/
def allocLoop (size units : Nat) : (fuel : Nat) → (pages : List (Option Nat)) →
    (prev cur : Nat) → State →
    Option (Option Nat × State × List (Option Nat))
  | 0, _, _, _, _ => none
  | fuel + 1, pages, prev, cur, s =>
      if units ≤ s.units cur then
        some (some cur, takeBlock units prev cur s, pages)
      else if cur = s.slobfree then
        if size = pageSize then some (none, s, pages)
        else
          match pages with
          | [] => none
          | none :: pages => some (none, s, pages)
          | some page :: pages =>
              match slobFree fuel page pageSize s with
              | none => none
              | some s =>
                  allocLoop size units fuel pages s.slobfree
                    (s.next s.slobfree) s
      else allocLoop size units fuel pages cur (s.next cur) s

/-- `slob_alloc`. A failed assertion has no result. -/
def slobAlloc (fuel size : Nat) (pages : List (Option Nat)) (s : State) :
    Option (Option Nat × State × List (Option Nat)) :=
  if size + slobUnit < pageSize then
    allocLoop size (slobUnits size) fuel pages s.slobfree
      (s.next s.slobfree) s
  else none

-- ================================================= kmalloc and kfree

/-- `find_order`; its parameter is an `int`. -/
def findOrder (size : Int) : Nat :=
  if size ≤ 4096 then 0 else findOrder (size / 2) + 1
termination_by size.toNat

/-- A `size_t` passed for an `int`. -/
def toInt (n : Nat) : Int := Int.bmod n (2 ^ 32)

/-- `sizeof(bigblock_t)`. -/
def bigblockSize : Nat := 24

/-- `kmalloc`. -/
def kmalloc (fuel size : Nat) (pages : List (Option Nat)) (s : State) :
    Option (Option Nat × State × List (Option Nat)) :=
  if size < pageSize - slobUnit then
    match slobAlloc fuel (size + slobUnit) pages s with
    | none => none
    | some (none, s, pages) => some (none, s, pages)
    | some (some m, s, pages) => some (some (m + slobUnit), s, pages)
  else
    match slobAlloc fuel bigblockSize pages s with
    | none => none
    | some (none, s, pages) => some (none, s, pages)
    | some (some _, _, []) => none
    | some (some bb, s, some block :: pages) =>
        let b := { addr := bb, order := findOrder (toInt size), pages := block }
        some (some block, { s with bigblocks := b :: s.bigblocks }, pages)
    | some (some bb, s, none :: pages) =>
        match slobFree fuel bb bigblockSize s with
        | none => none
        | some s => some (none, s, pages)

/-- `kfree`. The pages of a big block go back to the page allocator, which is
not part of this state. -/
def kfree (fuel block : Nat) (s : State) : Option State :=
  if block = 0 then some s
  else if block % pageSize = 0 then
    match s.bigblocks.find? fun bb => bb.pages = block with
    | some bb =>
        slobFree fuel bb.addr bigblockSize
          { s with bigblocks := s.bigblocks.erase bb }
    | none => slobFree fuel (block - slobUnit) 0 s
  else slobFree fuel (block - slobUnit) 0 s

/-- What `kfree` gives back to the page allocator: the number of pages from
`block`. -/
def kfreePages (block : Nat) (s : State) : Option Nat :=
  if block ≠ 0 ∧ block % pageSize = 0 then
    (s.bigblocks.find? fun bb => bb.pages = block).map fun bb => 2 ^ bb.order
  else none

-- ========================================================= the calls

/-- The heap, the sizes asked for with the blocks in use, by what `kmalloc`
returned for them, and the pages the heap has got. -/
structure World where
  state : State
  live : Nat → Option Nat
  pages : List Nat

/-- The page can be one that `alloc_pages` returns: it is not in use, and
neither overlaps the arena nor touches it. -/
structure Fresh (arena : Nat) (w : World) (page : Nat) : Prop where
  pos : 0 < page
  aligned : page % pageSize = 0
  unused : page ∉ w.pages
  apart : arena + slobUnit < page ∨ page + pageSize < arena

/-- A call, or a write of the owner of a block to it. -/
inductive Label where
  | kmalloc (size : Nat) (r : Option Nat)
  | kfree (block : Nat)
  | write (block addr : Nat)
  deriving DecidableEq

/-- The blocks in use after a call to `kmalloc`. -/
def allocated (live : Nat → Option Nat) (size : Nat) :
    (r : Option Nat) → Nat → Option Nat
  | some p => Function.update live p (some size)
  | none => live

/-- The pages of the heap after a call that was given one. -/
def grown (pages : List Nat) (page : Nat) :
    (rest : List (Option Nat)) → List Nat
  | [] => page :: pages
  | _ :: _ => pages

/-- A call to `kmalloc` gets one page if it asks for one. The owner of a block
may write to it whatever he likes. -/
inductive Step (arena : Nat) : World → Label → World → Prop
  | kmalloc {w : World} {size page fuel : Nat} {r : Option Nat} {s : State}
      {rest : List (Option Nat)}
      (hpos : 1 ≤ size) (hsize : size < pageSize - 2 * slobUnit)
      (hpage : Fresh arena w page)
      (hcall : kmalloc fuel size [some page] w.state = some (r, s, rest)) :
      Step arena w (.kmalloc size r)
        { state := s, live := allocated w.live size r,
          pages := grown w.pages page rest }
  | kfree {w : World} {block size fuel : Nat} {s : State}
      (hlive : w.live block = some size)
      (hcall : kfree fuel block w.state = some s) :
      Step arena w (.kfree block)
        { w with state := s, live := Function.update w.live block none }
  | write {w : World} {block size addr n c : Nat}
      (hlive : w.live block = some size) (hlo : block ≤ addr)
      (hhi : addr + slobUnit ≤ block - slobUnit
        + w.state.units (block - slobUnit) * slobUnit) :
      Step arena w (.write block addr)
        { w with state := (w.state.setUnits addr n).setNext addr c }

/-- The heap holds the arena only. -/
structure Start (arena : Nat) (w : World) : Prop where
  units : w.state.units arena = 1
  next : w.state.next arena = arena
  slobfree : w.state.slobfree = arena
  bigblocks : w.state.bigblocks = []
  live : ∀ p, w.live p = none
  pages : w.pages = []

-- =========================================== the calls with any size

/-- What `kmalloc` took for a block: units off the free list, and for a big
block the number of pages from its address. -/
structure Taken where
  units : Extent
  pages : Option Nat

/-- The bytes of a block that its owner may use. -/
def Taken.bytes (t : Taken) : Nat :=
  match t.pages with
  | none => t.units.len - slobUnit
  | some k => k * pageSize

/-- The heap, what was taken for the blocks in use, by their addresses, and
the pages the heap has got. -/
structure Heap where
  state : State
  taken : Nat → Option Taken
  pages : List Nat

/-- The `n` pages from `addr` can be what `alloc_pages` returns: none of them
is in use, and the arena neither overlaps nor touches them. -/
structure Free (arena : Nat) (w : Heap) (addr n : Nat) : Prop where
  pos : 0 < addr
  aligned : addr % pageSize = 0
  unused : ∀ page ∈ w.pages,
    page + pageSize ≤ addr ∨ addr + n * pageSize ≤ page
  apart : ∀ p t k, w.taken p = some t → t.pages = some k →
    p + k * pageSize ≤ addr ∨ addr + n * pageSize ≤ p
  arena : arena + slobUnit < addr ∨ addr + n * pageSize < arena

/-- The pages that `kmalloc` asks for to make a big block. -/
def pagesOf (size : Nat) : Nat := 2 ^ findOrder (toInt size)

/-- The bytes of the free list: of the blocks that the pointers lead to. -/
def Unused (s : State) (q : Nat) : Prop :=
  ∃ k, s.next^[k] s.slobfree ≤ q
    ∧ q < s.next^[k] s.slobfree + s.units (s.next^[k] s.slobfree) * slobUnit

/-- The free list has room for a `bigblock_t`: no page is asked for. -/
def Room (s : State) : Prop :=
  ∃ fuel r, slobAlloc fuel bigblockSize [] s = some r

/-- What `alloc_pages` may return in a call of `kmalloc`: for a big block the
pages come last, after a page for the heap where the heap has no room. -/
inductive Answers (arena : Nat) (w : Heap) (size : Nat) :
    List (Option Nat) → Prop
  | small {page : Option Nat} (hsize : size < pageSize - slobUnit)
      (hpage : ∀ a, page = some a → Free arena w a 1) :
      Answers arena w size [page]
  | room {block : Option Nat} (hsize : ¬ size < pageSize - slobUnit)
      (hroom : Room w.state)
      (hblock : ∀ b, block = some b → Free arena w b (pagesOf size)) :
      Answers arena w size [block]
  | grown {page block : Option Nat} (hsize : ¬ size < pageSize - slobUnit)
      (hroom : ¬ Room w.state)
      (hpage : ∀ a, page = some a → Free arena w a 1)
      (hblock : ∀ b, block = some b → Free arena w b (pagesOf size))
      (hapart : ∀ a b, page = some a → block = some b →
        a + pageSize ≤ b ∨ b + pagesOf size * pageSize ≤ a) :
      Answers arena w size [page, block]

/-- The page among the answers that the heap got in the call. -/
def heapPage (size : Nat) :
    (answers rest : List (Option Nat)) → Option Nat
  | [page], [] => if size < pageSize - slobUnit then page else none
  | [page, _], _ => page
  | _, _ => none

/-- What a call took for the block `p`, to read off the state after it: the
header of a big block is in front of the list. -/
def takenFor (size p : Nat) (s : State) : Taken :=
  if size < pageSize - slobUnit then
    { units := ⟨p - slobUnit, s.units (p - slobUnit) * slobUnit⟩
      pages := none }
  else
    { units := ⟨(s.bigblocks.map Bigblock.addr).headD 0,
        slobUnits bigblockSize * slobUnit⟩
      pages := some (pagesOf size) }

/-- The heap after a call of `kmalloc`. -/
def Heap.after (w : Heap) (size : Nat) (answers : List (Option Nat))
    (r : Option Nat) (s : State) (rest : List (Option Nat)) : Heap where
  state := s
  taken :=
    match r with
    | some p => Function.update w.taken p (some (takenFor size p s))
    | none => w.taken
  pages := (heapPage size answers rest).toList ++ w.pages

/-- A call, or a write of the owner of a block to it. -/
inductive HeapStep (arena : Nat) : Heap → Label → Heap → Prop
  | kmalloc {w : Heap} {size fuel : Nat} {r : Option Nat} {s : State}
      {answers rest : List (Option Nat)} (hpos : 1 ≤ size)
      (hanswers : Answers arena w size answers)
      (hcall : kmalloc fuel size answers w.state = some (r, s, rest)) :
      HeapStep arena w (.kmalloc size r) (w.after size answers r s rest)
  | kfree {w : Heap} {block fuel : Nat} {t : Taken} {s : State}
      (htaken : w.taken block = some t)
      (hcall : kfree fuel block w.state = some s) :
      HeapStep arena w (.kfree block)
        { w with state := s, taken := Function.update w.taken block none }
  | write {w : Heap} {block addr n c : Nat} {t : Taken}
      (htaken : w.taken block = some t) (hlo : block ≤ addr)
      (hhi : addr + slobUnit ≤ block + t.bytes) :
      HeapStep arena w (.write block addr)
        { w with state := (w.state.setUnits addr n).setNext addr c }

/-- Exactly the units `e` left the free list, which got the page first where
there is one. -/
structure LeftList (s s' : State) (e : Extent) (page : Option Nat) :
    Prop where
  bytes : ∀ q, Unused s' q ∨ e.Has q
    ↔ Unused s q ∨ ∃ a, page = some a ∧ a ≤ q ∧ q < a + pageSize
  apart : ∀ q, e.Has q → ¬ Unused s' q

/-- `kmalloc` returns a block that is large enough, for which it took exactly
what it says. -/
def Contract (w : Heap) (size : Nat) (answers : List (Option Nat)) : Prop :=
  ∃ fuel p s rest, kmalloc fuel size answers w.state = some (some p, s, rest)
    ∧ size ≤ (takenFor size p s).bytes
    ∧ LeftList w.state s (takenFor size p s).units
      (heapPage size answers rest)

/-- `kfree` gives back the pages and the units that were taken, and nothing
else. -/
def GivesBack (w : Heap) (p : Nat) (t : Taken) : Prop :=
  ∃ fuel s, kfree fuel p w.state = some s
    ∧ kfreePages p w.state = t.pages
    ∧ LeftList s w.state t.units none

/-- The heap holds the arena only. -/
structure Empty (arena : Nat) (w : Heap) : Prop where
  units : w.state.units arena = 1
  next : w.state.next arena = arena
  slobfree : w.state.slobfree = arena
  bigblocks : w.state.bigblocks = []
  taken : ∀ p, w.taken p = none
  pages : w.pages = []

end Ucore.Slob
