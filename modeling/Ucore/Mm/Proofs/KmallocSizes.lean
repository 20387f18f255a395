/-
`kmalloc` of any size: what it takes, what of it can be used, and what
`kfree` gives back.

The header of a big block is a block of the heap like any other, and the
heap does not look at the list of big blocks. So a heap with big blocks is
one without them (`State.withBig`) in which the headers, too, are blocks in
use, and all that is known of the small heap applies (`Kept`). What is new
is arithmetic: `kmalloc` adds a header to a small request before
`slob_alloc` adds another one to check the sum, and `find_order` drops the
bits that it shifts out.
-/
import Ucore.Mm.Proofs.Kmalloc

namespace Ucore.Slob

open Extent

variable {s s' : State} {l : List Extent} {w w' : Heap}
  {arena fuel size b p m u x : Nat} {bs : List Bigblock}

-- ======================================================== big blocks

/-- The state with another list of big blocks. -/
def State.withBig (s : State) (bs : List Bigblock) : State :=
  { s with bigblocks := bs }

theorem findPoint_withBig :
    findPoint (s.withBig bs) b fuel x = findPoint s b fuel x := by
  induction fuel generalizing x with
  | zero => rfl
  | succ fuel ih =>
      unfold findPoint
      rw [ih]
      rfl

theorem joinRight_withBig (b m : Nat) (s : State) :
    joinRight b m (s.withBig bs) = (joinRight b m s).withBig bs := by
  by_cases h : b + s.units b * slobUnit = s.next m
  · simp only [joinRight, State.withBig, h, if_true, State.setUnits,
      State.setNext]
  · simp only [joinRight, State.withBig, h, if_false, State.setNext]

theorem joinLeft_withBig (b m : Nat) (s : State) :
    joinLeft b m (s.withBig bs) = (joinLeft b m s).withBig bs := by
  by_cases h : m + s.units m * slobUnit = b
  · simp only [joinLeft, State.withBig, h, if_true, State.setUnits,
      State.setNext]
  · simp only [joinLeft, State.withBig, h, if_false, State.setNext]

theorem joinBlock_withBig (b m : Nat) (s : State) :
    joinBlock b m (s.withBig bs) = (joinBlock b m s).withBig bs := by
  rw [joinBlock_eq, joinBlock_eq, joinRight_withBig, joinLeft_withBig]
  rfl

/-- `slob_free` does not look at the big blocks. -/
theorem slobFree_withBig : slobFree fuel b size (s.withBig bs)
    = (slobFree fuel b size s).map fun s => s.withBig bs := by
  unfold slobFree
  by_cases hb : b = 0
  · rw [if_pos hb, if_pos hb]
    rfl
  · rw [if_neg hb, if_neg hb]
    have hset : (if size = 0 then s.withBig bs
        else (s.withBig bs).setUnits b (slobUnits size))
        = (if size = 0 then s else s.setUnits b (slobUnits size)).withBig
          bs := by
      split
      case isTrue _ => rfl
      case isFalse _ => rfl
    simp only [hset, findPoint_withBig]
    obtain ⟨t, ht⟩ : ∃ t, t = if size = 0 then s
        else s.setUnits b (slobUnits size) := ⟨_, rfl⟩
    rw [← ht]
    have hfree : (t.withBig bs).slobfree = t.slobfree := rfl
    rw [hfree]
    cases findPoint t b fuel t.slobfree with
    | none => rfl
    | some m => exact congrArg some (joinBlock_withBig b m t)

theorem takeBlock_withBig (u p m : Nat) (s : State) :
    takeBlock u p m (s.withBig bs) = (takeBlock u p m s).withBig bs := by
  by_cases h : s.units m = u
  · simp only [takeBlock, State.withBig, h, if_true, State.setNext]
  · simp only [takeBlock, State.withBig, h, if_false, State.setNext,
      State.setUnits]

/-- Neither does `slob_alloc`. -/
theorem allocLoop_withBig {pages : List (Option Nat)} :
    allocLoop size u fuel pages p x (s.withBig bs)
      = (allocLoop size u fuel pages p x s).map
        fun r => (r.1, r.2.1.withBig bs, r.2.2) := by
  induction fuel generalizing pages p x s with
  | zero => rfl
  | succ fuel ih =>
      unfold allocLoop
      by_cases hfit : u ≤ s.units x
      · have hfit' : u ≤ (s.withBig bs).units x := hfit
        rw [if_pos hfit, if_pos hfit', takeBlock_withBig]
        rfl
      have hfit' : ¬ u ≤ (s.withBig bs).units x := hfit
      rw [if_neg hfit, if_neg hfit']
      by_cases hround : x = s.slobfree
      · have hround' : x = (s.withBig bs).slobfree := hround
        rw [if_pos hround, if_pos hround']
        by_cases hsize : size = pageSize
        · rw [if_pos hsize, if_pos hsize]
          rfl
        rw [if_neg hsize, if_neg hsize]
        cases pages with
        | nil => rfl
        | cons page pages =>
            cases page with
            | none => rfl
            | some page =>
                simp only [slobFree_withBig]
                cases slobFree fuel page pageSize s with
                | none => rfl
                | some s₁ => exact ih
      · have hround' : ¬ x = (s.withBig bs).slobfree := hround
        rw [if_neg hround, if_neg hround']
        exact ih

theorem slobAlloc_withBig {pages : List (Option Nat)} :
    slobAlloc fuel size pages (s.withBig bs)
      = (slobAlloc fuel size pages s).map
        fun r => (r.1, r.2.1.withBig bs, r.2.2) := by
  unfold slobAlloc
  split
  case isTrue _ => exact allocLoop_withBig
  case isFalse _ => rfl

-- ========================================================= the order

/-- Shifting right drops what is below: 4097 blocks of the order are too
many, and one byte less counts as 4096 of them. -/
theorem findOrder_le_iff {v : Int} {k : Nat} :
    findOrder v ≤ k ↔ v < 4097 * 2 ^ k := by
  induction v using findOrder.induct generalizing k with
  | case1 v hle =>
      have hpos : (0 : Int) < 2 ^ k := Int.pow_pos (by decide)
      unfold findOrder
      rw [if_pos hle]
      constructor
      · intro _
        omega
      · intro _
        exact Nat.zero_le k
  | case2 v hlt ih =>
      unfold findOrder
      rw [if_neg hlt]
      cases k with
      | zero =>
          rw [Int.pow_zero]
          constructor
          · intro h
            omega
          · intro h
            omega
      | succ k =>
          rw [Nat.add_le_add_iff_right, ih, Int.pow_succ]
          omega

/-- The request gets a block that is large enough. -/
def Fits (size : Nat) : Prop :=
  size < pageSize - 2 * slobUnit
    ∨ (pageSize - slobUnit ≤ size ∧ size < 2 ^ 31)
      ∧ ∀ k, 1 ≤ k → ¬ (4096 * 2 ^ k < size ∧ size < 4097 * 2 ^ k)

theorem toInt_of_lt (h : size < 2 ^ 31) : toInt size = size :=
  Int.bmod_eq_of_le (by omega) (by omega)

/-- The pages are enough unless the size is between 4096 and 4097 times a
power of two. -/
theorem le_pagesOf_iff (hsize : size < 2 ^ 31) :
    size ≤ pagesOf size * pageSize
      ↔ ∀ k, 1 ≤ k → ¬ (4096 * 2 ^ k < size ∧ size < 4097 * 2 ^ k) := by
  have horder : ∀ k, findOrder (toInt size) ≤ k ↔ size < 4097 * 2 ^ k := by
    intro k
    rw [findOrder_le_iff, toInt_of_lt hsize]
    have hcast : ((4097 * 2 ^ k : Nat) : Int) = 4097 * 2 ^ k := by
      rw [Int.natCast_mul, Int.natCast_pow]
      rfl
    rw [← hcast, Int.ofNat_lt]
  unfold pagesOf
  obtain ⟨o, ho⟩ : ∃ o, o = findOrder (toInt size) := ⟨_, rfl⟩
  rw [← ho] at horder ⊢
  have hpage : pageSize = 4096 := rfl
  have htop := (horder o).1 (Nat.le_refl o)
  rw [hpage]
  constructor
  · intro hle k _ hbad
    have hok := (horder k).2 hbad.2
    have hpow := Nat.pow_le_pow_right (show 0 < 2 by decide) hok
    omega
  · intro hno
    by_contra hgt
    have hzero : o ≠ 0 := by
      intro hzero
      rw [hzero] at hgt htop
      omega
    exact hno o (by omega) ⟨by omega, htop⟩

/-- The order is no more than 19. -/
theorem pagesOf_lt (hsize : 2 ^ 31 ≤ size) :
    ¬ size ≤ pagesOf size * pageSize := by
  have hpage : pageSize = 4096 := rfl
  have hbound : toInt size < 4097 * 2 ^ 19 := by
    have hlt := Int.bmod_lt (x := (size : Int)) (m := 2 ^ 32) (by decide)
    unfold toInt
    omega
  have horder := findOrder_le_iff.2 hbound
  have hpow := Nat.pow_le_pow_right (show 0 < 2 by decide) horder
  unfold pagesOf
  rw [hpage]
  intro hle
  -- only 2^31 itself is left, which is a negative `int`
  have hsame : size = 2 ^ 31 := by omega
  subst hsame
  have hneg : findOrder (toInt (2 ^ 31)) ≤ 0 := by
    apply findOrder_le_iff.2
    decide
  have hone := Nat.pow_le_pow_right (show 0 < 2 by decide) hneg
  omega

-- ===================================================== the invariant

theorem State.withBig_self (h : s.bigblocks = bs) : s.withBig bs = s := by
  subst h
  rfl

/-- The heap without its big blocks, with the blocks `live` in use. -/
def Heap.core (w : Heap) (live : Nat → Option Nat) : World where
  state := w.state.withBig []
  live := live
  pages := w.pages

/-- What holds between two calls. The blocks in use of the small heap are
the small ones and the headers of the big ones. -/
structure Tracks (arena : Nat) (w : Heap) (live : Nat → Option Nat)
    (l : List Extent) : Prop where
  inv : Inv arena (w.core live) l
  header : ∀ p t, w.taken p = some t →
    (∃ n, live (t.units.start + slobUnit) = some n)
      ∧ blockOf w.state (t.units.start + slobUnit) = t.units
  inj : ∀ p p' t t', w.taken p = some t → w.taken p' = some t' →
    t.units.start = t'.units.start → p = p'
  small : ∀ p t, w.taken p = some t → t.pages = none →
    p = t.units.start + slobUnit
  large : ∀ p t k, w.taken p = some t → t.pages = some k →
    t.units.len = slobUnits bigblockSize * slobUnit
      ∧ ∃ bb ∈ w.state.bigblocks, bb.pages = p ∧ bb.addr = t.units.start
        ∧ k = 2 ^ bb.order
  listed : ∀ bb ∈ w.state.bigblocks, ∃ t, w.taken bb.pages = some t
    ∧ t.pages = some (2 ^ bb.order)
  nodup : (w.state.bigblocks.map Bigblock.pages).Nodup
  own : ∀ p t k, w.taken p = some t → t.pages = some k →
    (0 < p ∧ p % pageSize = 0)
      ∧ (∀ page ∈ w.pages, page + pageSize ≤ p ∨ p + k * pageSize ≤ page)
      ∧ (arena + slobUnit ≤ p ∨ p + k * pageSize ≤ arena)

theorem Free.fresh {live : Nat → Option Nat} (h : Free arena w x 1) :
    Fresh arena (w.core live) x := by
  have hpage : 0 < pageSize := by decide
  refine ⟨h.pos, h.aligned, fun hin => ?_, ?_⟩
  · have hout := h.unused x hin
    omega
  · have harena := h.arena
    omega

/-- What `slob_alloc` leaves when it returns `m`: `u` units there are in
use, `new` are the pages it got. -/
structure Gets (arena : Nat) (w : Heap) (live : Nat → Option Nat)
    (n m u : Nat) (new : List Nat) (s : State) : Prop where
  inv : ∃ l, Inv arena
    { state := s.withBig [], live := Function.update live (m + slobUnit) (some n),
      pages := new ++ w.pages } l
  fresh : live (m + slobUnit) = none
  block : blockOf s (m + slobUnit) = ⟨m, u * slobUnit⟩
  kept : ∀ p n', live p = some n' → blockOf s p = blockOf w.state p
  bigblocks : s.bigblocks = w.state.bigblocks
  free : ∀ page ∈ new, Free arena w page 1

section Calls

variable {live : Nat → Option Nat} {n : Nat} {t : Taken}
  {answers rest : List (Option Nat)}

theorem slobAlloc_of_core {r : Option Nat}
    (h : slobAlloc fuel size answers (s.withBig []) = some (r, s', rest)) :
    slobAlloc fuel size answers s
      = some (r, s'.withBig s.bigblocks, rest) := by
  have hself : s = (s.withBig []).withBig s.bigblocks := rfl
  rw [hself, slobAlloc_withBig, h]
  rfl

/-- `slob_alloc` takes a block off the list, or asks for a page first. -/
theorem Tracks.slobAlloc_cases (h : Tracks arena w live l) (size n : Nat)
    (hsize : size + slobUnit < pageSize) (hn : 1 ≤ n)
    (hroom : n + slobUnit ≤ slobUnits size * slobUnit) :
    (∀ answers, ∃ fuel m s,
        slobAlloc fuel size answers w.state = some (some m, s, answers)
          ∧ Gets arena w live n m (slobUnits size) [] s)
      ∨ (∀ fuel, slobAlloc fuel size [] w.state = none)
        ∧ (∀ rest, ∃ fuel, slobAlloc fuel size (none :: rest) w.state
          = some (none, w.state, rest))
        ∧ ∀ page rest, Free arena w page 1 → ∃ fuel m s,
          slobAlloc fuel size (some page :: rest) w.state
              = some (some m, s, rest)
            ∧ Gets arena w live n m (slobUnits size) [page] s := by
  by_cases hfit : ∃ e ∈ l,
      slobUnits size ≤ (w.core live).state.units e.start
  · left
    intro answers
    obtain ⟨m, s', l', hloop, hinv, ⟨hnew, hblock⟩, hkept⟩ :=
      h.inv.slobAlloc size hfit hn hroom answers
    have hslob : slobAlloc (l.length + 1) size answers (w.state.withBig [])
        = some (some m, s', answers) := by
      unfold slobAlloc
      rw [if_pos hsize]
      exact hloop _ (Nat.lt_succ_self _)
    refine ⟨l.length + 1, m, _, slobAlloc_of_core hslob,
      ⟨⟨l', ?_⟩, hnew, hblock, hkept, rfl, by simp⟩⟩
    have hsame : (s'.withBig w.state.bigblocks).withBig [] = s' :=
      State.withBig_self hinv.bigblocks
    rw [hsame]
    exact hinv
  · right
    have hsmall : ∀ e ∈ l,
        (w.core live).state.units e.start < slobUnits size := by
      intro e he
      by_contra hle
      exact hfit ⟨e, he, by omega⟩
    refine ⟨fun fuel => ?_, fun rest => ?_, fun page rest hpage => ?_⟩
    · have hself : w.state
          = (w.state.withBig []).withBig w.state.bigblocks := rfl
      have hasks : slobAlloc fuel size [] (w.state.withBig []) = none :=
        h.inv.list.slobAlloc_asks hsmall fuel
      rw [hself, slobAlloc_withBig, hasks]
      rfl
    · have hnone : slobAlloc (l.length + 1) size (none :: rest)
          (w.state.withBig []) = some (none, w.state.withBig [], rest) :=
        h.inv.list.slobAlloc_none hsize hsmall rest
      have hcall := slobAlloc_of_core hnone
      exact ⟨l.length + 1, hcall⟩
    · obtain ⟨fuel, m, s', l', hslob, hinv, ⟨hnew, hblock⟩, hkept⟩ :=
        h.inv.slobAlloc_grow hsize hsmall hn hroom hpage.fresh rest
      refine ⟨fuel, m, _, slobAlloc_of_core hslob,
        ⟨⟨l', ?_⟩, hnew, hblock, hkept, rfl, ?_⟩⟩
      · have hsame : (s'.withBig w.state.bigblocks).withBig [] = s' :=
          State.withBig_self hinv.bigblocks
        rw [hsame]
        exact hinv
      · intro page' hmem
        rw [List.mem_singleton.1 hmem]
        exact hpage

-- ==================================================== one more block

/-- An entry after one was stored. -/
theorem taken_cases {taken : Nat → Option Taken} {v : Option Taken} {q : Nat}
    {t' : Taken} (h : Function.update taken p v q = some t') :
    q = p ∧ v = some t' ∨ q ≠ p ∧ taken q = some t' := by
  by_cases hq : q = p
  · rw [hq, Function.update_self] at h
    exact .inl ⟨hq, h⟩
  · rw [Function.update_of_ne hq] at h
    exact .inr ⟨hq, h⟩

/-- The block at hand is in the pages of the heap. -/
theorem Gets.inPages {new : List Nat} (hg : Gets arena w live n m u new s)
    {q : Nat} (hlo : m ≤ q) (hhi : q < m + u * slobUnit) :
    InPages (new ++ w.pages) q := by
  obtain ⟨l', hinv⟩ := hg.inv
  refine hinv.live_inPages ⟨m + slobUnit, n, Function.update_self .., ?_⟩
  show (blockOf s (m + slobUnit)).Has q
  rw [hg.block]
  exact ⟨hlo, hhi⟩

/-- A small block is no block already. -/
theorem Tracks.untaken_small {new : List Nat} (h : Tracks arena w live l)
    (hg : Gets arena w live n m u new s) (hu : 1 < u) :
    w.taken (m + slobUnit) = none := by
  by_contra hsome
  obtain ⟨t, ht⟩ := Option.ne_none_iff_exists'.1 hsome
  have hunit : slobUnit = 16 := rfl
  cases hpages : t.pages with
  | none =>
      have hstart := h.small _ t ht hpages
      obtain ⟨⟨n', hn'⟩, -⟩ := h.header _ t ht
      rw [← hstart, hg.fresh] at hn'
      cases hn'
  | some k =>
      obtain ⟨-, bb, -, -, -, hk⟩ := h.large _ t k ht hpages
      have hpos := Nat.two_pow_pos bb.order
      have hpage : pageSize = 4096 := rfl
      obtain ⟨page, hmem, hlo, hhi⟩ :=
        hg.inPages (q := m + slobUnit) (by omega) (by rw [hunit]; omega)
      rcases List.mem_append.1 hmem with hmem | hmem
      · have hout := (hg.free page hmem).apart _ t k ht hpages
        rw [hpage] at hout hhi
        omega
      · have hout := (h.own _ t k ht hpages).2.1 page hmem
        rw [hpage] at hout hhi
        omega

/-- Neither are pages that can be had. -/
theorem Tracks.untaken_large {k : Nat} (h : Tracks arena w live l)
    (hfree : Free arena w p k) (hk : 0 < k) : w.taken p = none := by
  by_contra hsome
  obtain ⟨t, ht⟩ := Option.ne_none_iff_exists'.1 hsome
  have hunit : slobUnit = 16 := rfl
  have hpage : pageSize = 4096 := rfl
  cases hpages : t.pages with
  | none =>
      have hstart := h.small _ t ht hpages
      obtain ⟨⟨n', hn'⟩, hblock⟩ := h.header _ t ht
      have hlive : (w.core live).live p = some n' := by
        rw [hstart]
        exact hn'
      obtain ⟨⟨hge, -⟩, hn, hlen⟩ := h.inv.live_size p n' hlive
      have hhas : LiveHas (w.core live) p := by
        refine ⟨p, n', hlive, Nat.sub_le p slobUnit, ?_⟩
        have hstop : (blockOf (w.core live).state p).stop
            = p - slobUnit + (blockOf (w.core live).state p).len := rfl
        omega
      obtain ⟨page, hmem, hlo, hhi⟩ := h.inv.live_inPages hhas
      have hout := hfree.unused page hmem
      rw [hpage] at hout hhi
      omega
  | some k' =>
      obtain ⟨-, bb, -, -, -, hk'⟩ := h.large _ t k' ht hpages
      have hpos := Nat.two_pow_pos bb.order
      have hout := hfree.apart _ t k' ht hpages
      rw [hpage] at hout
      omega

/-- No block in use has its units where the ones at hand are. -/
theorem Tracks.start_ne {new : List Nat} (h : Tracks arena w live l)
    (hg : Gets arena w live n m u new s) {q : Nat}
    (hq : w.taken q = some t) : t.units.start ≠ m := by
  intro heq
  obtain ⟨⟨n', hn'⟩, -⟩ := h.header q t hq
  rw [heq, hg.fresh] at hn'
  cases hn'

/-- The heap with a block at hand. -/
theorem Tracks.hold {new : List Nat} (h : Tracks arena w live l)
    (hg : Gets arena w live n m u new s) :
    ∃ l', Tracks arena
      { state := s, taken := w.taken, pages := new ++ w.pages }
      (Function.update live (m + slobUnit) (some n)) l' := by
  obtain ⟨l', hinv⟩ := hg.inv
  have hbig := hg.bigblocks
  refine ⟨l', ⟨hinv, fun q t hq => ?_, h.inj, h.small, ?_, ?_, ?_, ?_⟩⟩
  · obtain ⟨⟨n', hn'⟩, hblock⟩ := h.header q t hq
    have hne : t.units.start + slobUnit ≠ m + slobUnit := fun heq =>
      h.start_ne hg hq (Nat.add_right_cancel heq)
    refine ⟨⟨n', ?_⟩, (hg.kept _ n' hn').trans hblock⟩
    rw [Function.update_of_ne hne]
    exact hn'
  · simp only [hbig]
    exact h.large
  · simp only [hbig]
    exact h.listed
  · simp only [hbig]
    exact h.nodup
  · intro q t k hq hpages
    obtain ⟨hal, hout, harena⟩ := h.own q t k hq hpages
    refine ⟨hal, fun page hmem => ?_, harena⟩
    rcases List.mem_append.1 hmem with hmem | hmem
    · have hapart := (hg.free page hmem).apart q t k hq hpages
      omega
    · exact hout page hmem

/-- The heap once the block at hand is handed out. -/
theorem Tracks.add {new : List Nat} (h : Tracks arena w live l)
    (bs : List Bigblock)
    (hg : Gets arena w live n m u new s) (hnone : w.taken p = none)
    (hunits : t.units = ⟨m, u * slobUnit⟩)
    (hsmall : t.pages = none →
      p = m + slobUnit ∧ bs = w.state.bigblocks)
    (hlarge : ∀ k, t.pages = some k → u = slobUnits bigblockSize
      ∧ (∃ bb, bs = bb :: w.state.bigblocks ∧ bb.pages = p ∧ bb.addr = m
        ∧ k = 2 ^ bb.order)
      ∧ (0 < p ∧ p % pageSize = 0)
      ∧ (∀ page ∈ new ++ w.pages,
        page + pageSize ≤ p ∨ p + k * pageSize ≤ page)
      ∧ (arena + slobUnit ≤ p ∨ p + k * pageSize ≤ arena)) :
    ∃ l', Tracks arena
      { state := s.withBig bs, taken := Function.update w.taken p (some t),
        pages := new ++ w.pages }
      (Function.update live (m + slobUnit) (some n)) l' := by
  obtain ⟨l', hhold⟩ := h.hold hg
  have hbig := hg.bigblocks
  have hsub : ∀ bb ∈ w.state.bigblocks, bb ∈ bs := by
    intro bb hbb
    cases hpages : t.pages with
    | none =>
        rw [(hsmall hpages).2]
        exact hbb
    | some k =>
        obtain ⟨-, ⟨b₀, rfl, -⟩, -⟩ := hlarge k hpages
        exact List.mem_cons_of_mem b₀ hbb
  have hlisted : ∀ bb ∈ w.state.bigblocks, bb.pages ≠ p ∧ ∃ t',
      Function.update w.taken p (some t) bb.pages = some t'
        ∧ t'.pages = some (2 ^ bb.order) := by
    intro bb hbb
    obtain ⟨t', ht', horder⟩ := h.listed bb hbb
    have hne : bb.pages ≠ p := by
      intro heq
      rw [heq, hnone] at ht'
      cases ht'
    exact ⟨hne, t', by rw [Function.update_of_ne hne, ht'], horder⟩
  refine ⟨l', ⟨hhold.inv, ?_, ?_, ?_, ?_, ?_, ?_, ?_⟩⟩
  · intro q t' hq
    rcases taken_cases hq with ⟨-, heq⟩ | ⟨-, hq⟩
    · cases heq
      rw [hunits]
      exact ⟨⟨n, Function.update_self ..⟩, hg.block⟩
    · exact hhold.header q t' hq
  · intro q q' t₁ t₂ hq hq' heq
    rcases taken_cases hq with ⟨hqp, heq₁⟩ | ⟨-, hq⟩
    · rcases taken_cases hq' with ⟨hqp', -⟩ | ⟨-, hq'⟩
      · rw [hqp, hqp']
      · cases heq₁
        rw [hunits] at heq
        exact absurd heq.symm (h.start_ne hg hq')
    · rcases taken_cases hq' with ⟨-, heq₂⟩ | ⟨-, hq'⟩
      · cases heq₂
        rw [hunits] at heq
        exact absurd heq (h.start_ne hg hq)
      · exact h.inj q q' t₁ t₂ hq hq' heq
  · intro q t' hq hpages
    rcases taken_cases hq with ⟨hqp, heq⟩ | ⟨-, hq⟩
    · cases heq
      rw [hqp, hunits]
      exact (hsmall hpages).1
    · exact h.small q t' hq hpages
  · intro q t' k hq hpages
    rcases taken_cases hq with ⟨hqp, heq⟩ | ⟨-, hq⟩
    · cases heq
      obtain ⟨hu, ⟨bb, hbs, hbp, hbm, hk⟩, -⟩ := hlarge k hpages
      rw [hunits, hu, hqp]
      refine ⟨rfl, bb, ?_, hbp, hbm, hk⟩
      show bb ∈ bs
      rw [hbs]
      exact List.mem_cons_self
    · obtain ⟨hlen, bb, hbb, hrest⟩ := h.large q t' k hq hpages
      exact ⟨hlen, bb, hsub bb hbb, hrest⟩
  · intro bb hbb
    have hbb' : bb ∈ bs := hbb
    cases hpages : t.pages with
    | none =>
        rw [(hsmall hpages).2] at hbb'
        exact (hlisted bb hbb').2
    | some k =>
        obtain ⟨-, ⟨b₀, rfl, hbp, -, hk⟩, -⟩ := hlarge k hpages
        rcases List.mem_cons.1 hbb' with rfl | hbb'
        · refine ⟨t, ?_, by rw [hpages, hk]⟩
          rw [hbp]
          exact Function.update_self ..
        · exact (hlisted bb hbb').2
  · show (bs.map Bigblock.pages).Nodup
    cases hpages : t.pages with
    | none =>
        rw [(hsmall hpages).2]
        exact h.nodup
    | some k =>
        obtain ⟨-, ⟨b₀, rfl, hbp, -, hk⟩, -⟩ := hlarge k hpages
        rw [List.map_cons, List.nodup_cons]
        refine ⟨fun hmem => ?_, h.nodup⟩
        obtain ⟨bb, hbb, heq⟩ := List.mem_map.1 hmem
        exact (hlisted bb hbb).1 (heq.trans hbp)
  · intro q t' k hq hpages
    rcases taken_cases hq with ⟨hqp, heq⟩ | ⟨-, hq⟩
    · cases heq
      rw [hqp]
      exact (hlarge k hpages).2.2
    · exact hhold.own q t' k hq hpages

-- ==================================================== the free bytes

/-- The bytes of the free list are those of its members. -/
theorem FreeList.unused_iff (h : FreeList s l) {q : Nat} :
    Unused s q ↔ Covers l q := by
  constructor
  · intro hq
    obtain ⟨k, hlo, hhi⟩ := hq
    have hmem := (h.circle.mem_iff h.slobfree).2 ⟨k, rfl⟩
    obtain ⟨e, he, hstart⟩ := mem_starts.1 hmem
    rw [← hstart] at hlo hhi
    rw [← h.units e he] at hhi
    exact ⟨e, he, hlo, hhi⟩
  · intro hq
    obtain ⟨e, he, hlo, hhi⟩ := hq
    obtain ⟨k, hk⟩ :=
      (h.circle.mem_iff h.slobfree).1 (mem_starts.2 ⟨e, he, rfl⟩)
    refine ⟨k, ?_⟩
    rw [hk, ← h.units e he]
    exact ⟨hlo, hhi⟩

/-- The free bytes are the others. -/
theorem Inv.unused_iff {v : World} (h : Inv arena v l) {q : Nat} :
    Unused v.state q ↔ ((arena ≤ q ∧ q < arena + slobUnit)
      ∨ InPages v.pages q) ∧ ¬ LiveHas v q := by
  rw [h.list.unused_iff, ← h.cover q]
  constructor
  · intro hq
    exact ⟨.inl hq, h.apart q hq⟩
  · intro hq
    exact hq.1.resolve_right hq.2

theorem inPages_append {xs ys : List Nat} {q : Nat} :
    InPages (xs ++ ys) q ↔ InPages xs q ∨ InPages ys q := by
  simp only [InPages, List.mem_append, or_and_right, exists_or]

/-- A byte of a page that the heap gets was none of its own. -/
theorem Free.not_inPages {k q : Nat} (h : Free arena w x k) (hlo : x ≤ q)
    (hhi : q < x + k * pageSize) : ¬ InPages w.pages q := by
  intro hin
  obtain ⟨page, hmem, hlo', hhi'⟩ := hin
  have hout := h.unused page hmem
  omega

/-- What was in use is so still, and the block at hand, too. -/
theorem Gets.liveHas_iff {new : List Nat} (hg : Gets arena w live n m u new s)
    {q : Nat} :
    LiveHas { state := s.withBig []
              live := Function.update live (m + slobUnit) (some n)
              pages := new ++ w.pages } q
      ↔ LiveHas (w.core live) q ∨ (Extent.mk m (u * slobUnit)).Has q := by
  constructor
  · intro hq
    obtain ⟨p, n', hp, hhas⟩ := hq
    by_cases hpm : p = m + slobUnit
    · right
      have hblock : blockOf (s.withBig []) p = ⟨m, u * slobUnit⟩ := by
        rw [hpm]
        exact hg.block
      rw [← hblock]
      exact hhas
    · left
      have hold : live p = some n' := by
        have hp' : Function.update live (m + slobUnit) (some n) p
            = some n' := hp
        rw [Function.update_of_ne hpm] at hp'
        exact hp'
      refine ⟨p, n', hold, ?_⟩
      show (blockOf w.state p).Has q
      rw [← hg.kept p n' hold]
      exact hhas
  · intro hq
    rcases hq with ⟨p, n', hp, hhas⟩ | hq
    · have hold : live p = some n' := hp
      have hpm : p ≠ m + slobUnit := by
        intro heq
        rw [heq, hg.fresh] at hold
        cases hold
      refine ⟨p, n', ?_, ?_⟩
      · show Function.update live (m + slobUnit) (some n) p = some n'
        rw [Function.update_of_ne hpm]
        exact hold
      · show (blockOf s p).Has q
        rw [hg.kept p n' hold]
        exact hhas
    · refine ⟨m + slobUnit, n, Function.update_self .., ?_⟩
      show (blockOf s (m + slobUnit)).Has q
      rw [hg.block]
      exact hq

/-- The block at hand was free, or is in the page that the heap got. -/
theorem Tracks.leftList {page : Option Nat} (h : Tracks arena w live l)
    (hg : Gets arena w live n m u page.toList s) (bs : List Bigblock) :
    LeftList w.state (s.withBig bs) ⟨m, u * slobUnit⟩ page := by
  obtain ⟨l', hinv⟩ := hg.inv
  have hbefore : ∀ q, Unused w.state q
      ↔ ((arena ≤ q ∧ q < arena + slobUnit) ∨ InPages w.pages q)
        ∧ ¬ LiveHas (w.core live) q := fun q => h.inv.unused_iff
  have hafter : ∀ q, Unused (s.withBig bs) q
      ↔ ((arena ≤ q ∧ q < arena + slobUnit)
        ∨ InPages (page.toList ++ w.pages) q)
        ∧ ¬ (LiveHas (w.core live) q
          ∨ (Extent.mk m (u * slobUnit)).Has q) := by
    intro q
    rw [← hg.liveHas_iff]
    exact hinv.unused_iff
  have hpage : ∀ q, (∃ a, page = some a ∧ a ≤ q ∧ q < a + pageSize)
      ↔ InPages page.toList q := by
    intro q
    cases page with
    | none => simp [InPages]
    | some a => simp [InPages]
  -- a block in use does not meet the one at hand
  have hmeet : ∀ q, (Extent.mk m (u * slobUnit)).Has q →
      ¬ LiveHas (w.core live) q := by
    intro q hq hlive
    obtain ⟨p, n', hp, hhas⟩ := hlive
    have hold : live p = some n' := hp
    have hpm : p ≠ m + slobUnit := by
      intro heq
      rw [heq, hg.fresh] at hold
      cases hold
    have hp' : Function.update live (m + slobUnit) (some n) p = some n' := by
      rw [Function.update_of_ne hpm]
      exact hold
    apply hpm
    apply hinv.live_apart p (m + slobUnit) n' n q hp' (Function.update_self ..)
    · show (blockOf s p).Has q
      rw [hg.kept p n' hold]
      exact hhas
    · show (blockOf s (m + slobUnit)).Has q
      rw [hg.block]
      exact hq
  have hnew : ∀ q, InPages page.toList q → ¬ LiveHas (w.core live) q := by
    intro q hq hlive
    obtain ⟨a, ha, hlo, hhi⟩ := hq
    have hfree := hg.free a ha
    exact hfree.not_inPages hlo (by omega) (h.inv.live_inPages hlive)
  constructor
  · intro q
    rw [hbefore, hafter, hpage, inPages_append]
    constructor
    · intro hq
      rcases hq with ⟨hin, hno⟩ | hq
      · have hlive : ¬ LiveHas (w.core live) q := fun hl => hno (.inl hl)
        tauto
      · have hin := hg.inPages hq.1 hq.2
        rw [inPages_append] at hin
        have hlive := hmeet q hq
        tauto
    · intro hq
      by_cases hblock : (Extent.mk m (u * slobUnit)).Has q
      · exact .inr hblock
      · left
        have hlive : ¬ LiveHas (w.core live) q := by
          rcases hq with hq | hq
          · exact hq.2
          · exact hnew q hq
        tauto
  · intro q hq hfree
    exact ((hafter q).1 hfree).2 (.inr hq)

-- =========================================================== kmalloc

/-- What a call of `kmalloc` comes to: the heap is in order after it, and a
call whose questions are all answered returns a block. -/
structure Called (arena : Nat) (w : Heap) (size : Nat)
    (answers : List (Option Nat)) (r : Option Nat) (s : State)
    (rest : List (Option Nat)) : Prop where
  tracks : ∃ live l, Tracks arena (w.after size answers r s rest) live l
  block : (∀ a ∈ answers, a ≠ none) → ∃ p, r = some p
  list : ∀ p, r = some p → LeftList w.state s (takenFor size p s).units
    (heapPage size answers rest)
  enough : ∀ p, r = some p → size < pageSize - slobUnit →
    size ≤ (takenFor size p s).bytes

/-- A small block. -/
theorem Tracks.small_called {page : Option Nat} (h : Tracks arena w live l)
    (hpos : 1 ≤ size) (hsize : size < pageSize - 2 * slobUnit)
    (hpage : ∀ a, page = some a → Free arena w a 1) :
    ∃ fuel r s rest, kmalloc fuel size [page] w.state = some (r, s, rest)
      ∧ Called arena w size [page] r s rest := by
  have hunit : slobUnit = 16 := rfl
  have hpsize : pageSize = 4096 := rfl
  have hlt : size < pageSize - slobUnit := by omega
  have hroom : size + slobUnit ≤ slobUnits (size + slobUnit) * slobUnit := by
    unfold slobUnits
    rw [hunit]
    omega
  have hcall : ∀ {fuel r s rest},
      slobAlloc fuel (size + slobUnit) [page] w.state = some (r, s, rest) →
      kmalloc fuel size [page] w.state
        = some (r.map (· + slobUnit), s, rest) := by
    intro fuel r s rest hslob
    unfold kmalloc
    rw [if_pos hlt, hslob]
    cases r with
    | none => rfl
    | some m => rfl
  have hgot : ∀ {m : Nat} {s : State} {rest : List (Option Nat)},
      Gets arena w live size m (slobUnits (size + slobUnit))
        (heapPage size [page] rest).toList s →
      Called arena w size [page] (some (m + slobUnit)) s rest := by
    intro m s rest hg
    have htaken : takenFor size (m + slobUnit) s
        = ⟨⟨m, slobUnits (size + slobUnit) * slobUnit⟩, none⟩ := by
      unfold takenFor
      rw [if_pos hlt]
      exact congrArg (Taken.mk · none) hg.block
    have hu : 1 < slobUnits (size + slobUnit) := by
      unfold slobUnits
      rw [hunit]
      omega
    refine ⟨?_, fun _ => ⟨_, rfl⟩, fun p hp => ?_, fun p hp _ => ?_⟩
    · obtain ⟨l', ht⟩ := h.add w.state.bigblocks
        (t := takenFor size (m + slobUnit) s) hg (h.untaken_small hg hu) (by rw [htaken])
        (fun _ => ⟨rfl, rfl⟩) (fun k hk => by rw [htaken] at hk; cases hk)
      have hsame : s.withBig w.state.bigblocks = s :=
        State.withBig_self hg.bigblocks
      rw [hsame] at ht
      exact ⟨_, l', ht⟩
    · cases hp
      have hleft := h.leftList hg s.bigblocks
      rw [htaken]
      exact hleft
    · cases hp
      rw [htaken]
      exact Nat.le_sub_of_add_le hroom
  rcases h.slobAlloc_cases (size + slobUnit) size (by omega) hpos hroom
    with hfit | ⟨-, hnone, hsome⟩
  · obtain ⟨fuel, m, s', hslob, hg⟩ := hfit [page]
    exact ⟨fuel, _, s', _, hcall hslob, hgot hg⟩
  · cases page with
    | none =>
        obtain ⟨fuel, hslob⟩ := hnone []
        have hsame : w.after size [none] none w.state [] = w := by
          simp [Heap.after, heapPage]
        refine ⟨fuel, _, _, _, hcall hslob, ⟨live, l, hsame.symm ▸ h⟩,
          fun hall => ?_, (fun _ h => by cases h), fun _ h => by cases h⟩
        exact absurd rfl (hall none List.mem_cons_self)
    | some a =>
        obtain ⟨fuel, m, s', hslob, hg⟩ := hsome a [] (hpage a rfl)
        refine ⟨fuel, _, s', _, hcall hslob, hgot ?_⟩
        have hheap : heapPage size [some a] [] = some a := by
          simp [heapPage, hlt]
        rw [hheap]
        exact hg

theorem pagesOf_pos (size : Nat) : 0 < pagesOf size := Nat.two_pow_pos _

/-- What `slob_free` does with the block of which `live` knows. -/
theorem Tracks.slobFree (h : Tracks arena w live l) {q : Nat}
    (hq : live (q + slobUnit) = some n) :
    ∃ fuel s', Slob.slobFree fuel q 0 (w.state.withBig []) = some s'
      ∧ (∃ l', Inv arena
        { state := s'
          live := Function.update live (q + slobUnit) none
          pages := w.pages } l')
      ∧ ∀ p' n', live p' = some n' → p' ≠ q + slobUnit →
        blockOf s' p' = blockOf w.state p' := by
  obtain ⟨fuel, s', l', hcall, hinv, hkept⟩ := h.inv.kfree hq
  have hunit : slobUnit = 16 := rfl
  refine ⟨fuel, s', ?_, ⟨l', hinv⟩, hkept⟩
  unfold Slob.kfree at hcall
  rw [if_neg (by omega), Nat.add_sub_cancel] at hcall
  split at hcall
  case isTrue _ => exact hcall
  case isFalse _ => exact hcall

/-- Units that are as many as the size says need not be set. -/
theorem slobFree_of_units (h : s.units b = slobUnits size) :
    Slob.slobFree fuel b size s = Slob.slobFree fuel b 0 s := by
  have hset : s.setUnits b (slobUnits size) = s := by
    unfold State.setUnits
    rw [← h, Function.update_eq_self]
  unfold Slob.slobFree
  rw [hset, if_pos rfl, ite_self]

theorem slobFree_of_core (h : Slob.slobFree fuel b size (s.withBig []) = some s')
    (bs : List Bigblock) :
    Slob.slobFree fuel b size (s.withBig bs) = some (s'.withBig bs) := by
  have hself : s.withBig bs = (s.withBig []).withBig bs := rfl
  rw [hself, slobFree_withBig, h]
  rfl

/-- A block in use that is put back is free, and nothing else is. -/
theorem Inv.leftList {v v' : World} (h : Inv arena v l)
    (h' : ∃ l', Inv arena v' l') (hq : v.live x = some n)
    (hlive : v'.live = Function.update v.live x none)
    (hpages : v'.pages = v.pages)
    (hkept : ∀ p' n', v.live p' = some n' → p' ≠ x →
      blockOf v'.state p' = blockOf v.state p') :
    LeftList v'.state v.state (blockOf v.state x) none := by
  obtain ⟨l', h'⟩ := h'
  have hother : ∀ p' n', v'.live p' = some n' ↔ v.live p' = some n' ∧ p' ≠ x := by
    intro p' n'
    rw [hlive]
    by_cases hp : p' = x
    · simp [hp]
    · simp [hp]
  have hhas : ∀ b, LiveHas v b
      ↔ LiveHas v' b ∨ (blockOf v.state x).Has b := by
    intro b
    constructor
    · intro hb
      obtain ⟨p', n', hp', hb⟩ := hb
      by_cases hp : p' = x
      · exact .inr (hp ▸ hb)
      · refine .inl ⟨p', n', (hother p' n').2 ⟨hp', hp⟩, ?_⟩
        rw [hkept p' n' hp' hp]
        exact hb
    · intro hb
      rcases hb with ⟨p', n', hp', hb⟩ | hb
      · obtain ⟨hold, hp⟩ := (hother p' n').1 hp'
        rw [hkept p' n' hold hp] at hb
        exact ⟨p', n', hold, hb⟩
      · exact ⟨x, n, hq, hb⟩
  have hmeet : ∀ b, (blockOf v.state x).Has b → ¬ LiveHas v' b := by
    intro b hb hb'
    obtain ⟨p', n', hp', hb'⟩ := hb'
    obtain ⟨hold, hp⟩ := (hother p' n').1 hp'
    rw [hkept p' n' hold hp] at hb'
    exact hp (h.live_apart p' x n' n b hold hq hb' hb)
  constructor
  · intro b
    rw [h.unused_iff, h'.unused_iff, hpages, hhas b]
    by_cases hb : (blockOf v.state x).Has b
    · have hin := h.live_inPages ((hhas b).2 (.inr hb))
      have hout := hmeet b hb
      simp only [hb, hin, hout, or_true, not_true_eq_false, and_false,
        not_false_eq_true, and_self, true_or]
    · simp [hb]
  · intro b hb hfree
    exact (h.unused_iff.1 hfree).2 ((hhas b).2 (.inr hb))

/-- The heap once units in use are put back, of which no block is left that
needs them. -/
theorem Tracks.release (h : Tracks arena w live l) (bs : List Bigblock)
    {q : Nat}
    (hq : live (q + slobUnit) = some n) {taken : Nat → Option Taken}
    (htaken : ∀ p t, taken p = some t →
      w.taken p = some t ∧ t.units.start ≠ q)
    (hlarge : ∀ p t k, taken p = some t → t.pages = some k →
      ∃ bb ∈ bs, bb.pages = p ∧ bb.addr = t.units.start ∧ k = 2 ^ bb.order)
    (hlisted : ∀ bb ∈ bs, ∃ t, taken bb.pages = some t
      ∧ t.pages = some (2 ^ bb.order))
    (hnodup : (bs.map Bigblock.pages).Nodup) :
    ∃ fuel s', Slob.slobFree fuel q 0 (w.state.withBig bs) = some s'
      ∧ (∃ live' l', Tracks arena
        { state := s', taken := taken, pages := w.pages } live' l')
      ∧ LeftList s' w.state (blockOf w.state (q + slobUnit)) none := by
  obtain ⟨fuel, s', hcall, ⟨l', hinv⟩, hkept⟩ := h.slobFree hq
  have hsame : (s'.withBig bs).withBig [] = s' :=
    State.withBig_self hinv.bigblocks
  have hleft := h.inv.leftList ⟨l', hinv⟩ hq rfl rfl hkept
  refine ⟨fuel, s'.withBig bs, slobFree_of_core hcall bs,
    ⟨Function.update live (q + slobUnit) none, l', ?_, ?_, ?_, ?_, ?_, ?_, ?_,
      ?_⟩, ⟨hleft.bytes, hleft.apart⟩⟩
  · rw [← hsame] at hinv
    exact hinv
  · intro p t hp
    obtain ⟨hold, hne⟩ := htaken p t hp
    obtain ⟨⟨n', hn'⟩, hblock⟩ := h.header p t hold
    have hne' : t.units.start + slobUnit ≠ q + slobUnit := fun heq =>
      hne (Nat.add_right_cancel heq)
    refine ⟨⟨n', ?_⟩, (hkept _ n' hn' hne').trans hblock⟩
    rw [Function.update_of_ne hne']
    exact hn'
  · intro p p' t t' hp hp'
    exact h.inj p p' t t' (htaken p t hp).1 (htaken p' t' hp').1
  · intro p t hp
    exact h.small p t (htaken p t hp).1
  · intro p t k hp hpages
    exact ⟨(h.large p t k (htaken p t hp).1 hpages).1,
      hlarge p t k hp hpages⟩
  · exact hlisted
  · exact hnodup
  · intro p t k hp
    exact h.own p t k (htaken p t hp).1

/-- A block at hand for which there is no use after all. -/
theorem Tracks.discard {new : List Nat} (h : Tracks arena w live l)
    (hg : Gets arena w live n m u new s) :
    ∃ fuel s', Slob.slobFree fuel m 0 s = some s'
      ∧ ∃ live' l', Tracks arena
        { state := s', taken := w.taken, pages := new ++ w.pages } live' l' := by
  obtain ⟨l', hhold⟩ := h.hold hg
  obtain ⟨fuel, s', hcall, htracks, -⟩ :=
    hhold.release s.bigblocks (q := m) (n := n) (Function.update_self ..)
      (fun p t hp => ⟨hp, h.start_ne hg hp⟩)
      (fun p t k hp hpages => (hhold.large p t k hp hpages).2)
      hhold.listed hhold.nodup
  exact ⟨fuel, s', hcall, htracks⟩

/-- What `kfree` does with a block in use. -/
theorem Tracks.kfree (h : Tracks arena w live l) (ht : w.taken p = some t) :
    GivesBack w p t ∧ ∃ fuel s', Slob.kfree fuel p w.state = some s'
      ∧ ∃ live' l', Tracks arena
        { w with state := s', taken := Function.update w.taken p none } live'
        l' := by
  have hunit : slobUnit = 16 := rfl
  obtain ⟨⟨n, hn⟩, hblock⟩ := h.header p t ht
  have htaken : ∀ q t', Function.update w.taken p none q = some t' →
      q ≠ p ∧ w.taken q = some t' := by
    intro q t' hq
    rcases taken_cases hq with ⟨-, heq⟩ | hq
    · cases heq
    · exact hq
  have hapart : ∀ q t', Function.update w.taken p none q = some t' →
      w.taken q = some t' ∧ t'.units.start ≠ t.units.start := by
    intro q t' hq
    obtain ⟨hne, hold⟩ := htaken q t' hq
    exact ⟨hold, fun heq => hne (h.inj q p t' t hold ht heq)⟩
  -- a big block that is listed is one in use
  have hlisted : ∀ bb ∈ w.state.bigblocks,
      (bb.pages = p ∧ t.pages = some (2 ^ bb.order)) ∨ bb.pages ≠ p
        ∧ ∃ t', Function.update w.taken p none bb.pages = some t'
          ∧ t'.pages = some (2 ^ bb.order) := by
    intro bb hbb
    obtain ⟨t', ht', horder⟩ := h.listed bb hbb
    by_cases hbp : bb.pages = p
    · rw [hbp, ht] at ht'
      cases ht'
      exact .inl ⟨hbp, horder⟩
    · exact .inr ⟨hbp, t', by rw [Function.update_of_ne hbp, ht'], horder⟩
  cases hpages : t.pages with
  | none =>
      have hother : ∀ bb ∈ w.state.bigblocks, bb.pages ≠ p ∧ ∃ t',
          Function.update w.taken p none bb.pages = some t'
            ∧ t'.pages = some (2 ^ bb.order) := by
        intro bb hbb
        rcases hlisted bb hbb with ⟨-, horder⟩ | hother
        · rw [hpages] at horder
          cases horder
        · exact hother
      have hnone : w.state.bigblocks.find? (fun bb => bb.pages = p)
          = none := by
        apply List.find?_eq_none.2
        intro bb hbb heq
        exact (hother bb hbb).1 (of_decide_eq_true heq)
      have hp := h.small p t ht hpages
      obtain ⟨fuel, s', hcall, htracks, hleft⟩ :=
        h.release w.state.bigblocks hn hapart
          (fun q t' k hq hk => (h.large q t' k (htaken q t' hq).2 hk).2)
          (fun bb hbb => (hother bb hbb).2) h.nodup
      have hfree : Slob.kfree fuel p w.state = some s' := by
        unfold Slob.kfree
        rw [if_neg (by omega), hnone]
        have hsub : p - slobUnit = t.units.start := by omega
        simp only [hsub, ite_self]
        exact hcall
      have hgive : kfreePages p w.state = none := by
        unfold kfreePages
        rw [hnone, Option.map_none, ite_self]
      rw [hblock] at hleft
      exact ⟨⟨fuel, s', hfree, hgive.trans hpages.symm, hleft⟩, fuel, s',
        hfree, htracks⟩
  | some k =>
      obtain ⟨hlen, bb, hbb, hbp, hba, hk⟩ := h.large p t k ht hpages
      obtain ⟨⟨hpos, hal⟩, -⟩ := h.own p t k ht hpages
      have hinj : ∀ bb' ∈ w.state.bigblocks, bb'.pages = p → bb' = bb :=
        fun bb' hbb' heq =>
          List.inj_on_of_nodup_map h.nodup hbb' hbb (heq.trans hbp.symm)
      have hfind : w.state.bigblocks.find? (fun bb => bb.pages = p)
          = some bb := by
        obtain ⟨bb', hfind⟩ : ∃ bb', w.state.bigblocks.find?
            (fun bb => bb.pages = p) = some bb' := by
          rw [← Option.isSome_iff_exists, List.find?_isSome]
          exact ⟨bb, hbb, decide_eq_true hbp⟩
        have hmem := List.mem_of_find?_eq_some hfind
        have heq : bb'.pages = p := by simpa using List.find?_some hfind
        rw [hfind, hinj bb' hmem heq]
      have hkeep : ∀ bb' ∈ w.state.bigblocks, bb'.pages ≠ p →
          bb' ∈ w.state.bigblocks.erase bb := by
        intro bb' hbb' hne
        apply (List.mem_erase_of_ne _).2 hbb'
        intro heq
        exact hne (heq ▸ hbp)
      have hnodup : w.state.bigblocks.Nodup := h.nodup.of_map _
      obtain ⟨fuel, s', hcall, htracks, hleft⟩ :=
        h.release (w.state.bigblocks.erase bb) hn hapart
          (fun q t' k hq hk => by
            obtain ⟨hne, hold⟩ := htaken q t' hq
            obtain ⟨-, bb', hbb', hrest⟩ := h.large q t' k hold hk
            exact ⟨bb', hkeep bb' hbb' (hrest.1 ▸ hne), hrest⟩)
          (fun bb' hbb' => by
            obtain ⟨hne, hmem⟩ := (hnodup.mem_erase_iff).1 hbb'
            rcases hlisted bb' hmem with ⟨heq, -⟩ | hother
            · exact absurd (hinj bb' hmem heq) hne
            · exact hother.2)
          (h.nodup.sublist (List.erase_sublist.map _))
      have hunits : w.state.units t.units.start = slobUnits bigblockSize := by
        have hsize : (blockOf w.state (t.units.start + slobUnit)).len
            = slobUnits bigblockSize * slobUnit := by
          rw [hblock]
          exact hlen
        unfold blockOf at hsize
        rw [Nat.add_sub_cancel] at hsize
        exact Nat.eq_of_mul_eq_mul_right (by decide) hsize
      have hfree : Slob.kfree fuel p w.state = some s' := by
        unfold Slob.kfree
        rw [if_neg (by omega), if_pos hal, hfind]
        simp only [hba]
        exact (slobFree_of_units (s := w.state.withBig
          (w.state.bigblocks.erase bb)) hunits).trans hcall
      have hgive : kfreePages p w.state = some k := by
        unfold kfreePages
        rw [if_pos ⟨by omega, hal⟩, hfind, hk]
        rfl
      rw [hblock] at hleft
      exact ⟨⟨fuel, s', hfree, hgive.trans hpages.symm, hleft⟩, fuel, s',
        hfree, htracks⟩

/-- What `kmalloc` does once it has the header of a big block. -/
theorem Tracks.big_called {new : List Nat} {block : Option Nat}
    (h : Tracks arena w live l) (hsize : ¬ size < pageSize - slobUnit)
    (hg : Gets arena w live n m (slobUnits bigblockSize) new s)
    (hslob : slobAlloc fuel bigblockSize answers w.state
      = some (some m, s, [block]))
    (hnew : (heapPage size answers []).toList = new)
    (hblock : ∀ b, block = some b → Free arena w b (pagesOf size))
    (hapart : ∀ b, block = some b → ∀ page ∈ new,
      page + pageSize ≤ b ∨ b + pagesOf size * pageSize ≤ page)
    (hlast : block = none → none ∈ answers) :
    ∃ fuel r s, kmalloc fuel size answers w.state = some (r, s, [])
      ∧ Called arena w size answers r s [] := by
  cases block with
  | none =>
      obtain ⟨k, s', hfree, htracks⟩ := h.discard hg
      have hunits : s.units m = slobUnits bigblockSize := by
        have hlen := congrArg Extent.len hg.block
        unfold blockOf at hlen
        rw [Nat.add_sub_cancel] at hlen
        exact Nat.eq_of_mul_eq_mul_right (by decide) hlen
      have hback : Slob.slobFree (k + fuel) m bigblockSize s = some s' := by
        rw [slobFree_of_units hunits]
        exact slobFree_mono hfree
      have hslob' : slobAlloc (k + fuel) bigblockSize answers w.state
          = some (some m, s, [none]) := by
        rw [Nat.add_comm]
        unfold slobAlloc at hslob ⊢
        rw [if_pos (by decide)] at hslob ⊢
        exact allocLoop_mono hslob
      have hcall : kmalloc (k + fuel) size answers w.state
          = some (none, s', []) := by
        unfold kmalloc
        rw [if_neg hsize, hslob']
        simp only
        rw [hback]
      refine ⟨k + fuel, none, s', hcall, ?_, fun hall => ?_,
        (fun _ h => by cases h), fun _ h => by cases h⟩
      · rw [← hnew] at htracks
        exact htracks
      · exact absurd rfl (hall none (hlast rfl))
  | some b =>
      obtain ⟨bb, hbb⟩ : ∃ bb : Bigblock, bb = ⟨m, findOrder (toInt size), b⟩ :=
        ⟨_, rfl⟩
      have hfree := hblock b rfl
      have hcall : kmalloc fuel size answers w.state
          = some (some b, s.withBig (bb :: w.state.bigblocks), []) := by
        unfold kmalloc
        rw [if_neg hsize, hslob, hbb, ← hg.bigblocks]
        rfl
      have htaken : takenFor size b (s.withBig (bb :: w.state.bigblocks))
          = ⟨⟨m, slobUnits bigblockSize * slobUnit⟩, some (pagesOf size)⟩ := by
        unfold takenFor
        rw [if_neg hsize, hbb]
        rfl
      refine ⟨fuel, some b, _, hcall, ?_, fun _ => ⟨b, rfl⟩, fun p hp => ?_,
        fun p _ hlt => absurd hlt hsize⟩
      · obtain ⟨l', ht⟩ := h.add (bb :: w.state.bigblocks)
          (t := takenFor size b (s.withBig (bb :: w.state.bigblocks))) hg
          (h.untaken_large hfree (pagesOf_pos size)) (by rw [htaken])
          (fun hk => by rw [htaken] at hk; cases hk) (fun k hk => by
            rw [htaken] at hk
            cases hk
            have harena := hfree.arena
            refine ⟨rfl, ⟨bb, rfl, by rw [hbb], by rw [hbb], by rw [hbb]; rfl⟩,
              ⟨hfree.pos, hfree.aligned⟩, fun page hmem => ?_, by omega⟩
            rcases List.mem_append.1 hmem with hmem | hmem
            · exact hapart b rfl page hmem
            · exact hfree.unused page hmem)
        rw [← hnew] at ht
        exact ⟨_, l', ht⟩
      · cases hp
        rw [htaken]
        apply h.leftList
        rw [hnew]
        exact hg

/-- A call of `kmalloc` returns, unless `slob_alloc` stops on its
assertion. -/
theorem Tracks.called (h : Tracks arena w live l) (hpos : 1 ≤ size)
    (hanswers : Answers arena w size answers)
    (hno : ¬ (pageSize - 2 * slobUnit ≤ size ∧ size < pageSize - slobUnit)) :
    ∃ fuel r s rest, kmalloc fuel size answers w.state = some (r, s, rest)
      ∧ Called arena w size answers r s rest := by
  have hheader : 16 + slobUnit ≤ slobUnits bigblockSize * slobUnit := by decide
  cases hanswers with
  | small hsize hpage => exact h.small_called hpos (by omega) hpage
  | @room block hsize hroom hblock =>
      rcases h.slobAlloc_cases bigblockSize 16 (by decide) (by decide)
        hheader with hfit | ⟨hasks, -, -⟩
      · obtain ⟨fuel, m, s', hslob, hg⟩ := hfit [block]
        obtain ⟨k, r, s₁, hcall⟩ := h.big_called hsize hg hslob
          (by simp [heapPage, hsize]) hblock
          (fun b _ page hmem => by cases hmem)
          (fun hb => by rw [hb]; exact List.mem_cons_self)
        exact ⟨k, r, s₁, [], hcall⟩
      · obtain ⟨fuel, r, hr⟩ := hroom
        rw [hasks fuel] at hr
        cases hr
  | @grown page block hsize hroom hpage hblock hapart =>
      rcases h.slobAlloc_cases bigblockSize 16 (by decide) (by decide)
        hheader with hfit | ⟨-, hnone, hsome⟩
      · obtain ⟨fuel, m, s', hslob, -⟩ := hfit []
        exact absurd ⟨fuel, _, hslob⟩ hroom
      · cases page with
        | none =>
            obtain ⟨fuel, hslob⟩ := hnone [block]
            have hcall : kmalloc fuel size [none, block] w.state
                = some (none, w.state, [block]) := by
              unfold kmalloc
              rw [if_neg hsize, hslob]
            refine ⟨fuel, none, w.state, [block], hcall, ⟨live, l, h⟩,
              fun hall => ?_, (fun _ h => by cases h), fun _ h => by cases h⟩
            exact absurd rfl (hall none List.mem_cons_self)
        | some a =>
            obtain ⟨fuel, m, s', hslob, hg⟩ := hsome a [block] (hpage a rfl)
            obtain ⟨k, r, s₁, hcall⟩ := h.big_called hsize hg hslob rfl hblock
              (fun b hb page hmem => by
                rw [List.mem_singleton.1 hmem]
                exact hapart a b rfl hb)
              (fun hb => by rw [hb]; simp)
            exact ⟨k, r, s₁, [], hcall⟩

-- ============================================================== fuel

theorem slobAlloc_mono {k : Nat} {r : Option Nat × State × List (Option Nat)}
    (h : slobAlloc fuel size answers s = some r) :
    slobAlloc (fuel + k) size answers s = some r := by
  unfold slobAlloc at h ⊢
  split at h
  case isFalse _ => cases h
  case isTrue hfit =>
    rw [if_pos hfit]
    exact allocLoop_mono h

theorem kmalloc_mono {k : Nat} {r : Option Nat × State × List (Option Nat)}
    (h : kmalloc fuel size answers s = some r) :
    kmalloc (fuel + k) size answers s = some r := by
  unfold kmalloc at h ⊢
  by_cases hsize : size < pageSize - slobUnit
  · rw [if_pos hsize] at h ⊢
    cases hslob : slobAlloc fuel (size + slobUnit) answers s with
    | none =>
        rw [hslob] at h
        cases h
    | some q =>
        rw [hslob] at h
        rw [slobAlloc_mono hslob]
        exact h
  · rw [if_neg hsize] at h ⊢
    cases hslob : slobAlloc fuel bigblockSize answers s with
    | none =>
        rw [hslob] at h
        cases h
    | some q =>
        obtain ⟨bb, s₁, rest⟩ := q
        rw [hslob] at h
        rw [slobAlloc_mono hslob]
        cases bb with
        | none => exact h
        | some bb =>
            cases rest with
            | nil => exact h
            | cons block rest =>
                cases block with
                | some block => exact h
                | none =>
                    simp only at h ⊢
                    cases hfree : Slob.slobFree fuel bb bigblockSize s₁ with
                    | none =>
                        rw [hfree] at h
                        cases h
                    | some s₂ =>
                        rw [hfree] at h
                        rw [slobFree_mono hfree]
                        exact h

theorem kmalloc_eq {fuel' : Nat} {r r' : Option Nat × State × List (Option Nat)}
    (h : kmalloc fuel size answers s = some r)
    (h' : kmalloc fuel' size answers s = some r') : r = r' := by
  have hone := kmalloc_mono (k := fuel') h
  have htwo := kmalloc_mono (k := fuel) h'
  rw [Nat.add_comm, hone, Option.some.injEq] at htwo
  exact htwo

theorem kfree_eq {fuel' : Nat} {s₁ : State}
    (h : Slob.kfree fuel p s = some s')
    (h' : Slob.kfree fuel' p s = some s₁) : s' = s₁ := by
  unfold Slob.kfree at h h'
  split at h
  case isTrue hp =>
    rw [if_pos hp] at h'
    exact Option.some.inj (h.symm.trans h')
  case isFalse hp =>
    rw [if_neg hp] at h'
    split at h
    case isFalse hpage =>
      rw [if_neg hpage] at h'
      exact slobFree_unique h h'
    case isTrue hpage =>
      rw [if_pos hpage] at h'
      cases hfind : s.bigblocks.find? fun bb => bb.pages = p with
      | none =>
          rw [hfind] at h h'
          exact slobFree_unique h h'
      | some bb =>
          rw [hfind] at h h'
          exact slobFree_unique h h'

-- ============================================================== runs

/-- The assertion of `slob_alloc` stops the call. -/
theorem kmalloc_asserts (hlo : pageSize - 2 * slobUnit ≤ size)
    (hhi : size < pageSize - slobUnit) :
    kmalloc fuel size answers s = none := by
  have hunit : slobUnit = 16 := rfl
  have hpage : pageSize = 4096 := rfl
  unfold kmalloc slobAlloc
  rw [if_pos hhi, if_neg (by omega)]

/-- An owner's bytes are neither free nor a header. -/
theorem Tracks.write (h : Tracks arena w live l) (ht : w.taken p = some t)
    {q c v : Nat} (hlo : p ≤ q) (hhi : q + slobUnit ≤ p + t.bytes) :
    Tracks arena { w with state := (w.state.setUnits q v).setNext q c } live
      l := by
  have hunit : slobUnit = 16 := rfl
  have hpage : pageSize = 4096 := rfl
  -- the byte written is in a block in use, behind its header, or not in the
  -- heap at all
  have hwhere : (∃ n', live p = some n' ∧ (blockOf w.state p).Has q
        ∧ p - slobUnit ≠ q)
      ∨ ¬ Covers l q ∧ ¬ LiveHas (w.core live) q := by
    unfold Taken.bytes at hhi
    cases hpages : t.pages with
    | none =>
        left
        rw [hpages] at hhi
        obtain ⟨⟨n', hn'⟩, hblock⟩ := h.header p t ht
        have hp := h.small p t ht hpages
        rw [← hp] at hn' hblock
        obtain ⟨-, -, hlen⟩ := h.inv.live_size p n' hn'
        have hlen' : n' + slobUnit ≤ (blockOf w.state p).len := hlen
        rw [hblock] at hlen' ⊢
        refine ⟨n', hn', ⟨by omega, ?_⟩, by omega⟩
        simp only [stop]
        simp only at hhi
        omega
    | some k =>
        right
        rw [hpages] at hhi
        obtain ⟨-, hapart, harena⟩ := h.own p t k ht hpages
        simp only at hhi
        have hout : ¬ ((arena ≤ q ∧ q < arena + slobUnit)
            ∨ InPages (w.core live).pages q) := by
          intro hin
          rcases hin with hin | ⟨page, hmem, hlo', hhi'⟩
          · omega
          · have hdisj := hapart page hmem
            omega
        rw [← h.inv.cover q, not_or] at hout
        exact hout
  have hnot : ¬ Covers l q := by
    rcases hwhere with ⟨n', hn', hhas, -⟩ | hout
    · intro hcov
      exact h.inv.apart q hcov ⟨p, n', hn', hhas⟩
    · exact hout.1
  have hheader : ∀ p' n', live p' = some n' → p' - slobUnit ≠ q := by
    intro p' n' hp' heq
    obtain ⟨⟨hp16, -⟩, -, hlen⟩ := h.inv.live_size p' n' hp'
    have hhead : (blockOf w.state p').Has q := by
      refine ⟨heq.le, ?_⟩
      rw [← heq]
      have hpos : 0 < (blockOf w.state p').len :=
        Nat.lt_of_lt_of_le (by omega : 0 < n' + slobUnit) hlen
      exact Nat.lt_add_of_pos_right hpos
    rcases hwhere with ⟨n'', hn'', hhas, hne⟩ | hout
    · have hsame := h.inv.live_apart p' p n' n'' q hp' hn'' hhead hhas
      rw [hsame] at heq
      exact hne heq
    · exact hout.2 ⟨p', n', hp', hhead⟩
  have hfree : q ∉ starts l := by
    intro hmem
    obtain ⟨a, ha, hstart⟩ := mem_starts.1 hmem
    exact hnot (hstart ▸ h.inv.list.separated.covers_start ha)
  refine ⟨h.inv.write hfree hheader, fun p' t' hp' => ?_, h.inj, h.small,
    h.large, h.listed, h.nodup, h.own⟩
  obtain ⟨⟨n', hn'⟩, hblock⟩ := h.header p' t' hp'
  refine ⟨⟨n', hn'⟩, (blockOf_congr ?_).trans hblock⟩
  have hne := hheader _ n' hn'
  exact Function.update_of_ne hne _ _

theorem Empty.tracks (h : Empty arena w) :
    ∃ live l, Tracks arena w live l := by
  have hstart : Start arena (w.core fun _ => none) :=
    ⟨h.units, h.next, h.slobfree, rfl, fun _ => rfl, h.pages⟩
  have htaken : ∀ {p : Nat} {t : Taken}, w.taken p ≠ some t := by
    intro p t ht
    rw [h.taken p] at ht
    cases ht
  refine ⟨_, _, hstart.inv, fun p t ht => absurd ht htaken,
    fun p p' t t' ht => absurd ht htaken, fun p t ht => absurd ht htaken,
    fun p t k ht => absurd ht htaken, fun bb hbb => ?_, ?_,
    fun p t k ht => absurd ht htaken⟩
  · rw [h.bigblocks] at hbb
    cases hbb
  · rw [h.bigblocks]
    exact List.nodup_nil

theorem HeapStep.tracks {lb : Label} (hstep : HeapStep arena w lb w')
    (h : ∃ live l, Tracks arena w live l) :
    ∃ live l, Tracks arena w' live l := by
  obtain ⟨live, l, h⟩ := h
  cases hstep with
  | kmalloc hpos hanswers hcall =>
      obtain ⟨fuel, r, s', rest, hcall', hcalled⟩ :=
        h.called hpos hanswers (fun hno => by
          rw [kmalloc_asserts hno.1 hno.2] at hcall
          cases hcall)
      cases kmalloc_eq hcall hcall'
      exact hcalled.tracks
  | kfree htaken hcall =>
      obtain ⟨-, fuel, s', hcall', htracks⟩ := h.kfree htaken
      cases kfree_eq hcall hcall'
      exact htracks
  | write htaken hlo hhi => exact ⟨live, l, h.write htaken hlo hhi⟩

end Calls

/-- In every state of every run a call of `kmalloc` whose questions are all
answered meets its contract exactly when the size is one that fits, and
`kfree` of any block in use gives back what was taken for it. -/
theorem kmalloc_contract {w₀ : Heap} {ls : List Label}
    (hstart : Empty arena w₀) (hrun : Run (HeapStep arena) w₀ ls w) :
    (∀ size answers, 1 ≤ size → Answers arena w size answers →
        (∀ a ∈ answers, a ≠ none) → (Contract w size answers ↔ Fits size))
      ∧ ∀ p t, w.taken p = some t → GivesBack w p t := by
  obtain ⟨live, l, h⟩ := hrun.invariant
    (I := fun w => ∃ live l, Tracks arena w live l)
    (fun h hs => HeapStep.tracks hs h) hstart.tracks
  have hunit : slobUnit = 16 := rfl
  have hpage : pageSize = 4096 := rfl
  refine ⟨fun size answers hpos hanswers hall => ?_,
    fun p t ht => (h.kfree ht).1⟩
  have hbytes : ∀ p s, ¬ size < pageSize - slobUnit →
      (takenFor size p s).bytes = pagesOf size * pageSize := by
    intro p s hsize
    unfold takenFor
    rw [if_neg hsize]
    rfl
  constructor
  · intro hcontract
    obtain ⟨fuel, p, s, rest, hcall, henough, -⟩ := hcontract
    by_cases hsmall : size < pageSize - 2 * slobUnit
    · exact .inl hsmall
    · have hlarge : ¬ size < pageSize - slobUnit := by
        intro hlt
        rw [kmalloc_asserts (by omega) hlt] at hcall
        cases hcall
      rw [hbytes p s hlarge] at henough
      have hint : size < 2 ^ 31 := by
        by_contra hge
        exact pagesOf_lt (by omega) henough
      exact .inr ⟨⟨by omega, hint⟩, (le_pagesOf_iff hint).1 henough⟩
  · intro hfits
    have hno : ¬ (pageSize - 2 * slobUnit ≤ size
        ∧ size < pageSize - slobUnit) := by
      rcases hfits with hlt | ⟨⟨hge, -⟩, -⟩
      · omega
      · omega
    obtain ⟨fuel, r, s, rest, hcall, hcalled⟩ := h.called hpos hanswers hno
    obtain ⟨p, rfl⟩ := hcalled.block hall
    refine ⟨fuel, p, s, rest, hcall, ?_, hcalled.list p rfl⟩
    by_cases hlt : size < pageSize - slobUnit
    · exact hcalled.enough p rfl hlt
    · rw [hbytes p s hlt]
      rcases hfits with hsmall | ⟨⟨-, hint⟩, hpow⟩
      · omega
      · exact (le_pagesOf_iff hint).2 hpow

/-- The arena alone, at 8. -/
def arenaHeap : Heap where
  state := arenaWorld.state
  taken _ := none
  pages := []

theorem arenaHeap_empty : Empty 8 arenaHeap :=
  ⟨rfl, rfl, rfl, rfl, fun _ => rfl, rfl⟩

/-- The first request of 4063 bytes. -/
theorem kmalloc_contract_once :
    Contract arenaHeap 4063 [some 4096] := by
  have hanswers : Answers 8 arenaHeap 4063 [some 4096] := by
    apply Answers.small (by decide)
    intro a ha
    cases ha
    refine ⟨by decide, by decide, ?_, (fun _ _ _ h => by cases h), by decide⟩
    intro page hpage
    cases hpage
  exact ((kmalloc_contract arenaHeap_empty (.nil _)).1 4063 [some 4096]
    (by decide) hanswers (by simp)).2 (.inl (by decide))

/-- A request of 4064 bytes stops on the assertion of `slob_alloc`. -/
theorem kmalloc_contract_breaks :
    ¬ ∀ (arena : Nat) (w₀ w : Heap) (ls : List Label), Empty arena w₀ →
      Run (HeapStep arena) w₀ ls w → ∀ size answers, 1 ≤ size →
        Answers arena w size answers → (∀ a ∈ answers, a ≠ none) →
        Contract w size answers := by
  intro hall
  have hanswers : Answers 8 arenaHeap 4064 [some 4096] := by
    apply Answers.small (by decide)
    intro a ha
    cases ha
    refine ⟨by decide, by decide, ?_, (fun _ _ _ h => by cases h), by decide⟩
    intro page hpage
    cases hpage
  obtain ⟨fuel, p, s, rest, hcall, -⟩ := hall 8 arenaHeap arenaHeap []
    arenaHeap_empty (.nil _) 4064 [some 4096] (by decide) hanswers (by simp)
  rw [kmalloc_asserts (by decide) (by decide)] at hcall
  cases hcall

end Ucore.Slob
