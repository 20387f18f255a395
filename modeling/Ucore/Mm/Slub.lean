/-
SLUB/slub.c of lab2: a cache of objects, and its calls.

`mem` holds the pointer stored at each address. A slab is known by the address
of its page (`page_address`), and `virt_to_slab` finds the slab whose page an
object lies in: neither function is in the source. Whether `kmalloc` and
`alloc_pages` succeed is given with each call.
-/
import Mathlib.Logic.Function.Basic
import Ucore.Lib.Run
import Mathlib.Algebra.Ring.Int.Defs

namespace Ucore.Slub

/-- `sizeof(void *)`. -/
def ptrSize : Nat := 8

/-- The bytes of the one page of a slab. -/
def pageSize : Nat := 4096

/-- `SLUB_MIN_OBJSIZE`. -/
def slubMinObjsize : Nat := 32

/-- `SLUB_MAX_OBJSIZE`. -/
def slubMaxObjsize : Nat := 1024

/-- A `struct slab`; 0 is `NULL`. -/
structure Slab where
  page : Nat
  freelist : Nat
  deriving DecidableEq

/-- The memory, and the `slab_list` of the cache from its head. -/
structure State where
  mem : Nat → Nat
  slabs : List Slab

/-- The loop that links the objects of a new slab: `p` and the memory after
it. The bound is an unsigned difference. -/
def initLoop (objSize : Nat) : (fuel i p : Nat) → (Nat → Nat) →
    Nat × (Nat → Nat)
  | 0, _, p, mem => (p, mem)
  | fuel + 1, i, p, mem =>
      if i < objSize - ptrSize then
        initLoop objSize fuel (i + objSize) (p + objSize)
          (Function.update mem p (p + objSize))
      else (p, mem)

/-- Take the first object of the first slab that has one. -/
def takeFirst (mem : Nat → Nat) : List Slab → Option (Nat × List Slab)
  | [] => none
  | slab :: slabs =>
      if slab.freelist ≠ 0 then
        some (slab.freelist, { slab with freelist := mem slab.freelist } :: slabs)
      else
        match takeFirst mem slabs with
        | none => none
        | some (obj, slabs) => some (obj, slab :: slabs)

/-- `kmem_cache_alloc`. -/
def kmemCacheAlloc (objSize : Nat) (kmallocOk : Bool) (page : Option Nat)
    (s : State) : Nat × State :=
  match takeFirst s.mem s.slabs with
  | some (obj, slabs) => (obj, { s with slabs := slabs })
  | none =>
      if kmallocOk then
        match page with
        | none => (0, s)
        | some page =>
            let slab := { page := page, freelist := page }
            let (p, mem) := initLoop objSize objSize 0 slab.freelist s.mem
            let mem := Function.update mem p 0
            (slab.freelist, { mem := mem, slabs := slab :: s.slabs })
      else (0, s)

/-- `virt_to_slab`. -/
def virtToSlab (obj : Nat) (slab : Slab) : Bool :=
  slab.page ≤ obj ∧ obj < slab.page + pageSize

/-- Give the slab of an object a new first object. -/
def setFreelist (obj : Nat) : List Slab → List Slab
  | [] => []
  | slab :: slabs =>
      if virtToSlab obj slab then { slab with freelist := obj } :: slabs
      else slab :: setFreelist obj slabs

/-- `kmem_cache_free`: the slab's `freelist` is read after it has been
overwritten. -/
def kmemCacheFree (obj : Nat) (s : State) : Option State :=
  match (setFreelist obj s.slabs).find? (virtToSlab obj) with
  | none => none
  | some slab =>
      some
        { mem := Function.update s.mem obj slab.freelist
          slabs := setFreelist obj s.slabs }

-- ========================================================= the calls

/-- The cache, and the objects that are allocated: one entry for each
allocation. -/
structure World where
  state : State
  live : List Nat

/-- A call, or a write of the owner of an object to it. -/
inductive Label where
  | alloc (r : Nat)
  | free (obj : Nat)
  | write (obj addr : Nat)
  deriving DecidableEq

/-- A page that `alloc_pages` can return. -/
structure Fresh (s : State) (page : Nat) : Prop where
  pos : 0 < page
  apart : ∀ slab ∈ s.slabs,
    slab.page + pageSize ≤ page ∨ page + pageSize ≤ slab.page

/-- An object is freed once for each time it was allocated. -/
inductive Step (objSize : Nat) : World → Label → World → Prop
  | alloc {w : World} {kmallocOk : Bool} {page : Option Nat} {r : Nat}
      {s : State} (hpage : ∀ p, page = some p → Fresh w.state p)
      (hcall : kmemCacheAlloc objSize kmallocOk page w.state = (r, s)) :
      Step objSize w (.alloc r)
        { state := s, live := if r = 0 then w.live else r :: w.live }
  | free {w : World} {obj : Nat} {s : State} (hlive : obj ∈ w.live)
      (hcall : kmemCacheFree obj w.state = some s) :
      Step objSize w (.free obj) { state := s, live := w.live.erase obj }
  | write {w : World} {obj addr v : Nat} (hlive : obj ∈ w.live)
      (hlo : obj ≤ addr) (hhi : addr < obj + objSize) :
      Step objSize w (.write obj addr)
        { w with
          state := { w.state with mem := Function.update w.state.mem addr v } }

/-- A new cache. -/
structure Start (w : World) : Prop where
  slabs : w.state.slabs = []
  live : w.live = []

/-- Objects allocated at the same time do not overlap, and each lies in the
page of a slab. -/
structure Sound (objSize : Nat) (w : World) : Prop where
  apart : w.live.Pairwise fun a b => a + objSize ≤ b ∨ b + objSize ≤ a
  inside : ∀ a ∈ w.live, ∃ slab ∈ w.state.slabs,
    slab.page ≤ a ∧ a + objSize ≤ slab.page + pageSize

/-- The call is no `kmem_cache_alloc` with an object allocated. -/
def Alone (w : World) : Label → Prop
  | .alloc _ => w.live = []
  | .free _ => True
  | .write _ _ => True

/-- A step that meets the condition. -/
def AloneStep (objSize : Nat) (w : World) (l : Label) (w' : World) : Prop :=
  Step objSize w l w' ∧ Alone w l

-- ======================================================== the counts

/-- The counters: `nr_objs` and `nr_free` of each slab, by its page, and
those of the cache. -/
structure Counters where
  slabObjs : Nat → Int
  slabFree : Nat → Int
  nrSlabs : Int
  nrObjs : Int
  nrFree : Int

/-- What `kmem_cache_alloc` does to the counters. -/
def countAlloc (objSize : Nat) (kmallocOk : Bool) (page : Option Nat)
    (s : State) (c : Counters) : Counters :=
  match s.slabs.find? fun slab => decide (slab.freelist ≠ 0) with
  | some slab =>
      let slabFree := c.slabFree slab.page - 1
      { c with
        slabFree := Function.update c.slabFree slab.page slabFree
        nrFree := c.nrFree - 1 }
  | none =>
      if kmallocOk then
        match page with
        | none => c
        | some page =>
            { slabObjs := Function.update c.slabObjs page objSize
              slabFree := Function.update c.slabFree page objSize
              nrSlabs := c.nrSlabs + 1
              nrObjs := c.nrObjs + 1
              nrFree := c.nrFree + 1 }
      else c

/-- What `kmem_cache_free` does to the counters. -/
def countFree (obj : Nat) (s : State) (c : Counters) : Counters :=
  match s.slabs.find? (virtToSlab obj) with
  | none => c
  | some slab =>
      let slabFree := c.slabFree slab.page + 1
      { c with
        slabFree := Function.update c.slabFree slab.page slabFree
        nrFree := c.nrFree + 1 }

/-- The cache with its counters, the objects that are allocated, and those
that were freed and not allocated again. -/
structure Counted extends World where
  counters : Counters
  freed : List Nat

/-- A call with what `kmalloc` and `alloc_pages` give it, or a write of the
owner of an object. -/
inductive Action where
  | alloc (kmallocOk : Bool) (page : Option Nat)
  | free (obj : Nat)
  | write (obj addr v : Nat)
deriving DecidableEq

/-- A step of the cache with its counters. -/
inductive CountStep (objSize : Nat) : Counted → Action → Counted → Prop
  | alloc {w : Counted} {kmallocOk : Bool} {page : Option Nat} {r : Nat}
      {s : State} (hpage : ∀ p, page = some p → Fresh w.state p)
      (hcall : kmemCacheAlloc objSize kmallocOk page w.state = (r, s)) :
      CountStep objSize w (.alloc kmallocOk page)
        { state := s
          live := if r = 0 then w.live else r :: w.live
          counters := countAlloc objSize kmallocOk page w.state w.counters
          freed := w.freed.filter (· ≠ r) }
  | free {w : Counted} {obj : Nat} {s : State} (hlive : obj ∈ w.live)
      (hcall : kmemCacheFree obj w.state = some s) :
      CountStep objSize w (.free obj)
        { state := s
          live := w.live.erase obj
          counters := countFree obj w.state w.counters
          freed := obj :: w.freed }
  | write {w : Counted} {obj addr v : Nat} (hlive : obj ∈ w.live)
      (hlo : obj ≤ addr) (hhi : addr < obj + objSize) :
      CountStep objSize w (.write obj addr v)
        { w with
          state := { w.state with mem := Function.update w.state.mem addr v } }

/-- A new cache. -/
structure CountStart (w : Counted) : Prop where
  slabs : w.state.slabs = []
  live : w.live = []
  freed : w.freed = []
  nrFree : w.counters.nrFree = 0

/-- The objects a `freelist` leads to, to its `NULL`. -/
def IsChain (mem : Nat → Nat) : Nat → List Nat → Prop
  | obj, [] => obj = 0
  | obj, o :: chain => obj = o ∧ o ≠ 0 ∧ IsChain mem (mem o) chain

/-- A place for an object in the page of a slab. -/
def Slab.Holds (objSize : Nat) (slab : Slab) (obj : Nat) : Prop :=
  ∃ i < pageSize / objSize, obj = slab.page + i * objSize

/-- The counters and the lists of free objects agree. -/
structure Accounted (objSize : Nat) (w : Counted) : Prop where
  chain : ∀ slab ∈ w.state.slabs, ∃ chain,
    IsChain w.state.mem slab.freelist chain ∧ chain.Nodup
      ∧ (chain.length : Int) = w.counters.slabFree slab.page
      ∧ ∀ obj ∈ chain, slab.Holds objSize obj ∧ obj ∉ w.live
  objs : ∀ slab ∈ w.state.slabs,
    w.counters.slabObjs slab.page = (pageSize / objSize : Nat)
  total : w.counters.nrFree
    = (w.state.slabs.map fun slab => w.counters.slabFree slab.page).sum
  freed : ∀ obj ∈ w.freed, ∃ slab ∈ w.state.slabs, ∃ chain,
    virtToSlab obj slab ∧ IsChain w.state.mem slab.freelist chain
      ∧ obj ∈ chain

/-- A call of `kmem_cache_alloc` with memory for a slab. -/
def Supplied : Action → Prop
  | .alloc true (some _) => True
  | _ => False

end Ucore.Slub
