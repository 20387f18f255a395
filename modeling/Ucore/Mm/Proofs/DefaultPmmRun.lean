/-
Runs of the first-fit allocator.

`Sys` is the allocator's memory together with the set of pages its callers
hold. A step is one call: `default_alloc_pages(n)`, or
`default_free_pages(base, n)` on pages that are held. A run starts from
`default_init` and `default_init_memmap` of one region.

# The tail insertion

`default_free_pages` links a block in by address. When the block belongs
behind every listed block, the insertion loop adds it there and goes
round once more, from the block it has just added: the block is the last
of the list again, and is now added after itself. Its `next` field is
right, its `prev` field points at itself. From then on `list_del` of that
block only relinks the block to itself, so the next `default_alloc_pages`
that picks it hands its pages out and leaves it on the list.

A call inserts at the tail of a nonempty list exactly when some page is
free and none of the free pages lies above `base`; `FreeAbove` is the
opposite. Runs whose releases are all `FreeAbove` never meet the tail
case and keep `Repr`, so every property of the allocator holds along them
(`reachable_safe`). `tail_release_unsafe` is a run of nine calls that ends
with a page handed out twice.

What the free list of the first-fit allocator looks like to someone who
walks it.

`FreeList` says it in terms of the memory alone: the blocks that the `next`
pointers lead through from `free_list`, which the `prev` pointers lead back
through, in the order of their addresses and with a gap after each. `Repr`
implies it (`Repr.freeList`). A block that is released to the tail of a
nonempty list ends up with a `prev` field that points at the block itself
(`TailLinked`): nobody who walks backwards gets past it, and the merge
with the block before it is not made either.
-/
import Ucore.Mm.Proofs.PageBlocks

namespace Ucore.DefaultPmm

open Ring Extent

-- =========================================================== systems

/-- The allocator's memory and the pages its callers hold. -/
structure Sys where
  pmm : Pmm
  allocd : Finset Nat

/-- A call to the allocator. -/
inductive Op where
  | alloc (n : Nat)
  | free (base n : Nat)

/-- The pages a call to `default_alloc_pages` grants. -/
def granted (r : Option Nat) (n : Nat) : Finset Nat :=
  match r with
  | none => ∅
  | some p => Finset.Ico p (p + n)

/-- One call. Callers only give back pages they hold. -/
def Sys.exec (fuel : Nat) (s : Sys) : Op → Option Sys
  | .alloc n =>
      match defaultAllocPages fuel n s.pmm with
      | none => none
      | some (r, pmm) => some ⟨pmm, s.allocd ∪ granted r n⟩
  | .free base n =>
      if Finset.Ico base (base + n) ⊆ s.allocd then
        match defaultFreePages fuel base n s.pmm with
        | none => none
        | some pmm => some ⟨pmm, s.allocd \ Finset.Ico base (base + n)⟩
      else none

/-- The memory after the initialisation of the region of `n` pages from
`lo` on. -/
def initSys (fuel lo n : Nat) (pmm : Pmm) : Option Sys :=
  match defaultInitMemmap fuel lo n (defaultInit pmm) with
  | none => none
  | some pmm => some ⟨pmm, ∅⟩

/-- A release does not go to the tail of a nonempty free list: no page of
the region is free, or one above `base` is. -/
def FreeAbove (lo hi : Nat) (s : Sys) : Op → Prop
  | .alloc _ => True
  | .free base _ =>
      (∀ q, lo ≤ q → q < hi → q ∈ s.allocd)
        ∨ ∃ q, base < q ∧ q < hi ∧ q ∉ s.allocd

/-- Some call leads from one state to the other. -/
def Step (s s' : Sys) : Prop := ∃ fuel op, s.exec fuel op = some s'

/-- Some call that inserts nothing at the tail leads from one state to the
other. -/
def StepFreeAbove (lo hi : Nat) (s s' : Sys) : Prop :=
  ∃ fuel op, s.exec fuel op = some s' ∧ FreeAbove lo hi s op

/-- What is asked of every state of a run: `nr_free` counts the pages of
the region that are not allocated, and a block that a call returns lies in
the region and holds no allocated page. -/
structure Safe (lo hi : Nat) (s : Sys) : Prop where
  nrFree : defaultNrFreePages s.pmm = (Finset.Ico lo hi \ s.allocd).card
  inside : ∀ fuel n p pmm,
    defaultAllocPages fuel n s.pmm = some (some p, pmm) →
      Finset.Ico p (p + n) ⊆ Finset.Ico lo hi
  fresh : ∀ fuel n p pmm,
    defaultAllocPages fuel n s.pmm = some (some p, pmm) →
      Disjoint (Finset.Ico p (p + n)) s.allocd

-- ============================================================== fuel

/-- More fuel does not change what the search finds. -/
theorem findBlock_mono {s : Pmm} {n fuel k : Nat} {le : Entry}
    {r : Option Nat} (h : findBlock s n fuel le = some r) :
    findBlock s n (fuel + k) le = some r := by
  induction fuel generalizing le with
  | zero => cases h
  | succ fuel ih =>
      rw [Nat.add_right_comm, findBlock]
      rw [findBlock] at h
      split at h
      case isTrue hend =>
        rw [if_pos hend]
        exact h
      case isFalse hend =>
        rw [if_neg hend]
        split at h
        case isTrue hfit =>
          rw [if_pos hfit]
          exact h
        case isFalse hfit =>
          rw [if_neg hfit]
          exact ih h

-- ============================================================= calls

section Calls

variable {lo hi n base fuel : Nat} {s s' : Pmm} {A : Finset Nat}
  {l : List Extent}

/-- The pages of a region that are free and held. -/
theorem Repr.holds (hs : Repr lo hi s A l) :
    Holds (Finset.Ico lo hi) s A l := by
  refine { listed_iff.1 hs.toListed with
    laid := hs.sep.laid
    free := fun q => ?_
    held := fun q hq => Finset.mem_Ico.2 (hs.held q hq)
    count := ?_
    narrow := ?_ }
  · rw [hs.free, Finset.mem_Ico, and_assoc]
  · rw [Nat.card_Ico]
    exact hs.count
  · have hnarrow := hs.narrow
    rw [Nat.card_Ico]
    omega

/-- Separated, they are the region's allocator. -/
theorem Holds.repr (hs : Holds (Finset.Ico lo hi) s A l) (hsep : Separated l)
    (hnarrow : hi < lo + 2 ^ 32) : Repr lo hi s A l := by
  refine { listed_iff.2 hs.toBlocks with
    sep := hsep
    free := fun q => ?_
    held := fun q hq => Finset.mem_Ico.1 (hs.held hq)
    count := ?_
    narrow := hnarrow }
  · rw [hs.free, Finset.mem_Ico, and_assoc]
  · have hcount := hs.count
    rw [Nat.card_Ico] at hcount
    exact hcount

/-- A call to `default_alloc_pages` either finds no block and changes
nothing, or grants free pages of the region. -/
theorem Repr.alloc {r : Option Nat} (hs : Repr lo hi s A l)
    (h : defaultAllocPages fuel n s = some (r, s')) :
    (r = none ∧ s' = s) ∨ ∃ p l', r = some p
      ∧ (∀ q, p ≤ q → q < p + n → lo ≤ q ∧ q < hi ∧ q ∉ A)
      ∧ Repr lo hi s' (A ∪ Finset.Ico p (p + n)) l' := by
  unfold defaultAllocPages at h
  split at h
  case isTrue => cases h
  case isFalse hn =>
    split at h
    case isTrue =>
      simp only [Option.some.injEq, Prod.mk.injEq] at h
      exact Or.inl ⟨h.1.symm, h.2.symm⟩
    case isFalse hroom =>
      have hlisted : Blocks (Finset.Ico lo hi) s ([] ++ l) :=
        hs.holds.toBlocks
      have hfuel : l.length < fuel + (l.length + 1) := by omega
      have hfind := findBlock_spec (n := n) hlisted hfuel
      cases hfb : findBlock s n fuel .freeList with
      | none => rw [hfb] at h; cases h
      | some r' =>
          rw [cells_nil, before_nil, findBlock_mono hfb,
            Option.some.injEq] at hfind
          rw [hfb] at h
          cases hfe : l.find? fun e => decide (n ≤ e.len) with
          | none =>
              rw [hfe] at hfind
              subst hfind
              simp only [Option.map_none, Option.some.injEq,
                Prod.mk.injEq] at h
              exact Or.inl ⟨h.1.symm, h.2.symm⟩
          | some e =>
              rw [hfe] at hfind
              subst hfind
              simp only [Option.map_some, Option.some.injEq,
                Prod.mk.injEq] at h
              obtain ⟨hr, rfl⟩ := h
              obtain ⟨hfit, pre, suf, rfl, -⟩ :=
                List.find?_eq_some_iff_append.1 hfe
              have hle : n ≤ e.len := by simpa using hfit
              have hn' : 0 < n := Nat.pos_of_ne_zero hn
              obtain ⟨hin, hs'⟩ := hs.holds.take hn' hle
              refine Or.inr ⟨e.start, pre ++ rest e n ++ suf, hr.symm,
                fun q h1 h2 => ?_,
                hs'.repr (carve_separated hs.sep) hs.narrow⟩
              obtain ⟨hq, hfree⟩ := hin q h1 h2
              rw [Finset.mem_Ico] at hq
              exact ⟨hq.1, hq.2, hfree⟩

/-- With enough time every call to `default_alloc_pages` returns. -/
theorem Repr.alloc_returns (hs : Repr lo hi s A l) (hn : 0 < n) :
    ∃ r s', defaultAllocPages (l.length + 1) n s = some (r, s') := by
  have hlisted : Blocks (Finset.Ico lo hi) s ([] ++ l) := hs.holds.toBlocks
  have hfind := findBlock_spec (n := n) hlisted (Nat.lt_succ_self l.length)
  rw [cells_nil, before_nil] at hfind
  unfold defaultAllocPages
  rw [if_neg (Nat.ne_of_gt hn), hfind]
  split
  · exact ⟨_, _, rfl⟩
  · cases l.find? fun e => decide (n ≤ e.len) with
    | none => exact ⟨_, _, rfl⟩
    | some e => exact ⟨_, _, rfl⟩

/-- A call to `default_free_pages` that inserts nothing at the tail
returns, and what it leaves represents the pages still allocated. -/
theorem Repr.free_pages (hs : Repr lo hi s A l) (hn : 0 < n)
    (hheld : Finset.Ico base (base + n) ⊆ A)
    (habove : (∀ q, lo ≤ q → q < hi → q ∈ A)
      ∨ ∃ q, base < q ∧ q < hi ∧ q ∉ A) :
    (∃ s', defaultFreePages (l.length + 1) base n s = some s')
      ∧ ∀ fuel s', defaultFreePages fuel base n s = some s' →
        ∃ l', Repr lo hi s' (A \ Finset.Ico base (base + n)) l' := by
  obtain ⟨pre, suf, rfl, hprestop, hsuf, hcall⟩ :=
    hs.holds.free_pages hn hheld
  have htail : suf = [] → pre = [] := by
    apply (hs.holds.tail_iff hn hprestop hsuf).2
    rcases habove with hall | ⟨q, hq1, hq2, hq3⟩
    · refine Or.inl fun q hq => ?_
      rw [Finset.mem_Ico] at hq
      exact hall q hq.1 hq.2
    · have hlo := (hs.held base
        (hheld (Finset.mem_Ico.2 ⟨by omega, by omega⟩))).1
      exact Or.inr ⟨q, Finset.mem_Ico.2 ⟨by omega, hq2⟩, hq1, hq3⟩
  obtain ⟨hreturns, hkeeps⟩ := hcall htail
  refine ⟨hreturns, fun fuel s' h => ⟨_, (hkeeps fuel s' h).repr ?_ hs.narrow⟩⟩
  exact coalesce_separated hs.sep hn hprestop hsuf

end Calls

-- ==================================================== initialisation

/-- The region starts as one free block. -/
theorem initSys_repr {fuel lo n : Nat} {pmm : Pmm} {s : Sys}
    (hw : n < 2 ^ 32) (h : initSys fuel lo n pmm = some s) :
    Repr lo (lo + n) s.pmm s.allocd [⟨lo, n⟩] := by
  unfold initSys defaultInitMemmap at h
  split at h
  case h_1 => cases h
  case h_2 t ht =>
    split at ht
    case isTrue => cases ht
    case isFalse hn =>
      cases hp : initPages lo n (defaultInit pmm).pages with
      | none => rw [hp] at ht; cases ht
      | some pages =>
          have hring := listInit_ring pmm.links Entry.freeList
          have hempty : listEmpty (listInit pmm.links Entry.freeList)
              .freeList = true := (listEmpty_ring hring).2 rfl
          have hadd : IsRing (listAdd (listInit pmm.links .freeList) .freeList
              (.pageLink lo)) .freeList (cells [⟨lo, n⟩]) :=
            listAdd_ring_head hring (by simp)
          have ht' : t =
              { setPageProperty (setProperty
                  { defaultInit pmm with pages := pages } lo n) lo
                with
                nrFree := u32 n
                links := listAdd (listInit pmm.links .freeList) .freeList
                  (.pageLink lo) } := by
            rw [hp] at ht
            simp only [setPageProperty, setProperty, setPage_links,
              setPage_nrFree, defaultInit, linkBlock, hempty, if_true,
              Option.some.injEq, Nat.zero_add] at ht
            rw [← ht]
            rfl
          have hpages : ∀ q, t.pages q = if q = lo then
              { pages lo with pgProperty := true, property := n }
              else pages q := by
            intro q
            rw [ht']
            simp only [setPageProperty, setProperty, setPage_pages, u32_eq hw]
            by_cases hq : q = lo
            · subst hq
              simp
            · simp [hq]
          rw [Option.some.injEq] at h
          subst h
          refine ⟨⟨?_, fun e he => ?_, fun e he => ?_, fun q h1 h2 => ?_,
            fun q h1 h2 => ?_, ?_⟩, ?_, fun q => ?_, by simp, ?_, by omega⟩
          · rw [ht']
            exact hadd
          · rw [List.mem_singleton.1 he]
            simp only [stop]
            omega
          · rw [List.mem_singleton.1 he, hpages, if_pos rfl]
          · rw [hpages]
            by_cases hq : q = lo
            · simp [hq]
            · rw [if_neg hq, initPages_spec hp h1 h2]
              simp only [Bool.false_eq_true, List.mem_singleton, false_iff]
              rintro ⟨e, rfl, heq⟩
              exact hq heq.symm
          · rw [hpages]
            split
            case isTrue => rw [initPages_spec hp (Nat.le_refl _) (by omega)]
            case isFalse => rw [initPages_spec hp h1 h2]
          · rw [ht']
            simp [u32_eq hw]
          · simp [separated_cons, separated_nil, Nat.pos_of_ne_zero hn]
          · simp [covers_cons, covers_nil, Has, stop]
          · rw [ht']
            simp [u32_eq hw]

-- ============================================================== runs

/-- What `Repr` says about a state. -/
theorem Repr.safe {lo hi : Nat} {s : Sys} {l : List Extent}
    (hs : Repr lo hi s.pmm s.allocd l) : Safe lo hi s := by
  have hblock : ∀ fuel n p pmm,
      defaultAllocPages fuel n s.pmm = some (some p, pmm) →
      ∀ q, p ≤ q → q < p + n → lo ≤ q ∧ q < hi ∧ q ∉ s.allocd := by
    intro fuel n p pmm h
    rcases hs.alloc h with ⟨hr, -⟩ | ⟨p', -, hr, hin, -⟩
    · cases hr
    · cases hr
      exact hin
  refine ⟨?_, fun fuel n p pmm h q hq => ?_, fun fuel n p pmm h => ?_⟩
  · have hsub : s.allocd ⊆ Finset.Ico lo hi :=
      fun q hq => Finset.mem_Ico.2 (hs.held q hq)
    have hcount := hs.count
    rw [Finset.card_sdiff_of_subset hsub, Nat.card_Ico, defaultNrFreePages]
    omega
  · rw [Finset.mem_Ico] at hq
    obtain ⟨h1, h2, -⟩ := hblock fuel n p pmm h q hq.1 hq.2
    exact Finset.mem_Ico.2 ⟨h1, h2⟩
  · rw [Finset.disjoint_left]
    intro q hq
    rw [Finset.mem_Ico] at hq
    exact (hblock fuel n p pmm h q hq.1 hq.2).2.2

/-- One call that inserts nothing at the tail keeps the memory an
allocator of the region. -/
theorem Repr.step {lo hi : Nat} {s s' : Sys} {l : List Extent}
    (hs : Repr lo hi s.pmm s.allocd l) (hstep : StepFreeAbove lo hi s s') :
    ∃ l', Repr lo hi s'.pmm s'.allocd l' := by
  obtain ⟨fuel, op, hexec, habove⟩ := hstep
  cases op with
  | alloc n =>
      rw [Sys.exec] at hexec
      cases ha : defaultAllocPages fuel n s.pmm with
      | none => rw [ha] at hexec; cases hexec
      | some rp =>
          obtain ⟨r, pmm⟩ := rp
          rw [ha] at hexec
          simp only [Option.some.injEq] at hexec
          subst hexec
          rcases hs.alloc ha with ⟨rfl, rfl⟩ | ⟨p, l', rfl, -, hs'⟩
          · exact ⟨l, by simpa [granted] using hs⟩
          · exact ⟨l', hs'⟩
  | free base n =>
      rw [Sys.exec] at hexec
      split at hexec
      case isFalse => cases hexec
      case isTrue hheld =>
        cases hf : defaultFreePages fuel base n s.pmm with
        | none => rw [hf] at hexec; cases hexec
        | some pmm =>
            rw [hf] at hexec
            simp only [Option.some.injEq] at hexec
            subst hexec
            have hn : 0 < n := by
              refine Nat.pos_of_ne_zero fun hn => ?_
              rw [defaultFreePages, if_pos hn] at hf
              cases hf
            exact (hs.free_pages hn hheld habove).2 fuel pmm hf

/-- Along every run whose releases are `FreeAbove`, the allocator is safe
and every further call of that kind returns. -/
theorem reachable_safe {fuel lo n : Nat} {pmm : Pmm} {s₀ s : Sys}
    (hw : n < 2 ^ 32) (hinit : initSys fuel lo n pmm = some s₀)
    (hrun : Relation.ReflTransGen (StepFreeAbove lo (lo + n)) s₀ s) :
    Safe lo (lo + n) s
      ∧ (∀ k, 0 < k → ∃ fuel s', s.exec fuel (.alloc k) = some s')
      ∧ ∀ base k, 0 < k → Finset.Ico base (base + k) ⊆ s.allocd →
          FreeAbove lo (lo + n) s (.free base k) →
          ∃ fuel s', s.exec fuel (.free base k) = some s' := by
  have hrepr : ∃ l, Repr lo (lo + n) s.pmm s.allocd l := by
    induction hrun with
    | refl => exact ⟨_, initSys_repr hw hinit⟩
    | tail _ hstep ih =>
        obtain ⟨l, hs⟩ := ih
        exact hs.step hstep
  obtain ⟨l, hs⟩ := hrepr
  refine ⟨hs.safe, fun k hk => ?_, fun base k hk hheld habove => ?_⟩
  · obtain ⟨r, s', ha⟩ := hs.alloc_returns hk
    exact ⟨l.length + 1, _, by rw [Sys.exec, ha]⟩
  · obtain ⟨⟨s', hf⟩, -⟩ := hs.free_pages hk hheld habove
    exact ⟨l.length + 1, _, by rw [Sys.exec, if_pos hheld, hf]⟩

/-- Six pages: two are taken and given back below the rest. -/
theorem reachable_safe_six : ∃ s₀ s, initSys 9 0 6 reservedPages = some s₀
    ∧ Relation.ReflTransGen (StepFreeAbove 0 6) s₀ s ∧ Safe 0 6 s := by
  obtain ⟨s₀, hinit⟩ : ∃ s₀, initSys 9 0 6 reservedPages = some s₀ :=
    ⟨_, rfl⟩
  obtain ⟨s₁, halloc⟩ : ∃ s₁, s₀.exec 9 (.alloc 2) = some s₁ := by
    cases hinit
    exact ⟨_, rfl⟩
  have habove : 2 ∉ s₁.allocd := by
    cases hinit
    cases halloc
    decide +kernel
  obtain ⟨s₂, hfree⟩ : ∃ s₂, s₁.exec 9 (.free 0 2) = some s₂ := by
    cases hinit
    cases halloc
    exact ⟨_, rfl⟩
  have hrun : Relation.ReflTransGen (StepFreeAbove 0 6) s₀ s₂ :=
    (Relation.ReflTransGen.single ⟨9, _, halloc, trivial⟩).tail
      ⟨9, _, hfree, Or.inr ⟨2, by decide, by decide, habove⟩⟩
  exact ⟨s₀, s₂, hinit, hrun,
    (reachable_safe (by decide) hinit hrun).1⟩

-- ================================================ the tail insertion

/-- Calls one after the other. -/
def Sys.execs (fuel : Nat) (s : Sys) : List Op → Option Sys
  | [] => some s
  | op :: ops =>
      match s.exec fuel op with
      | none => none
      | some s' => s'.execs fuel ops

theorem Sys.execs_run {fuel : Nat} {s s' : Sys} {ops : List Op}
    (h : s.execs fuel ops = some s') : Relation.ReflTransGen Step s s' := by
  induction ops generalizing s with
  | nil =>
      rw [Sys.execs, Option.some.injEq] at h
      rw [h]
  | cons op ops ih =>
      rw [Sys.execs] at h
      cases hop : s.exec fuel op with
      | none => rw [hop] at h; cases h
      | some t =>
          rw [hop] at h
          exact Relation.ReflTransGen.head ⟨fuel, op, hop⟩ (ih h)

/-- Six pages taken one by one and as a pair, then the pages 0, 2 and the
pair 4, 5 given back: 2 and 4 go to the tail of a nonempty list. The pair
is then handed out. -/
def tailOps : List Op :=
  [.alloc 1, .alloc 1, .alloc 1, .alloc 1, .alloc 2,
    .free 0 1, .free 2 1, .free 4 2, .alloc 2]

/-- The page the call after `tailOps` returns, and whether page 4 is
allocated at that time. -/
def tailOutcome : Option (Option Nat × Bool) :=
  match initSys 9 0 6 reservedPages with
  | none => none
  | some s₀ =>
      match s₀.execs 9 tailOps with
      | none => none
      | some s =>
          (defaultAllocPages 9 2 s.pmm).map fun r =>
            (r.1, decide (4 ∈ s.allocd))

/-- A release at the tail breaks the allocator: after `tailOps` the pages
4 and 5 are allocated, and the next call hands them out again. -/
theorem tail_release_unsafe :
    ¬ ∀ (fuel lo n : Nat) (pmm : Pmm) (s₀ s : Sys), n < 2 ^ 32 →
      initSys fuel lo n pmm = some s₀ →
      Relation.ReflTransGen Step s₀ s → Safe lo (lo + n) s := by
  intro hall
  have hout : tailOutcome = some (some 4, true) := by decide +kernel
  unfold tailOutcome at hout
  cases hinit : initSys 9 0 6 reservedPages with
  | none => rw [hinit] at hout; cases hout
  | some s₀ =>
      rw [hinit] at hout
      simp only at hout
      cases hops : s₀.execs 9 tailOps with
      | none => rw [hops] at hout; cases hout
      | some s =>
          rw [hops] at hout
          simp only [Option.map_eq_some_iff, Prod.mk.injEq,
            decide_eq_true_eq] at hout
          obtain ⟨⟨r, pmm⟩, halloc, rfl, hmem⟩ := hout
          have hsafe := hall 9 0 6 reservedPages s₀ s (by decide) hinit
            (Sys.execs_run hops)
          have hfresh := hsafe.fresh 9 2 4 pmm halloc
          exact Finset.disjoint_left.1 hfresh
            (Finset.mem_Ico.2 ⟨Nat.le_refl 4, by decide⟩) hmem

end Ucore.DefaultPmm

namespace Ucore.DefaultPmm

open Ring Extent

-- ===================================================== the free list

/-- Following a link of the cells from `free_list` visits some blocks and
comes back. -/
def Visits (link : Entry → Entry) (blocks : List Nat) : Prop :=
  Path link .freeList (blocks.map .pageLink) .freeList

/-- `blocks` are the free blocks of `[lo, hi)`, as their headers and links
say. -/
structure FreeList (lo hi : Nat) (s : Sys) (blocks : List Nat) : Prop where
  forward : Visits s.pmm.links.next blocks
  backward : Visits s.pmm.links.prev blocks.reverse
  /-- No block is empty. -/
  pos : ∀ b ∈ blocks, 0 < (s.pmm.pages b).property
  /-- Addresses increase, and each block ends before the next begins. -/
  gap : blocks.Pairwise fun a b => a + (s.pmm.pages a).property < b
  head : ∀ q, lo ≤ q → q < hi →
    ((s.pmm.pages q).pgProperty = true ↔ q ∈ blocks)
  /-- The pages in the blocks are those that are not allocated. -/
  free : ∀ q, (∃ b ∈ blocks, b ≤ q ∧ q < b + (s.pmm.pages b).property)
    ↔ lo ≤ q ∧ q < hi ∧ q ∉ s.allocd
  nrFree : s.pmm.nrFree = (blocks.map fun b => (s.pmm.pages b).property).sum

/-- The free list represents the free pages. -/
def Represented (lo hi : Nat) (s : Sys) : Prop :=
  ∃ blocks, FreeList lo hi s blocks

section FreeList

variable {lo hi : Nat} {s s' : Sys} {l : List Extent}

/-- What `Repr` says about the list. -/
theorem Repr.freeList (hs : Repr lo hi s.pmm s.allocd l) :
    FreeList lo hi s (l.map start) := by
  have hcells : (l.map start).map Entry.pageLink = cells l := by
    rw [List.map_map]
    rfl
  have hprop : ∀ e ∈ l, (s.pmm.pages e.start).property = e.len := hs.property
  refine ⟨?_, ?_, ?_, ?_, ?_, ?_, ?_⟩
  · unfold Visits
    rw [hcells]
    exact hs.ring.seg.path_next
  · unfold Visits
    rw [List.map_reverse, hcells]
    exact hs.ring.seg.path_prev
  · intro b hb
    obtain ⟨e, he, rfl⟩ := List.mem_map.1 hb
    rw [hprop e he]
    exact hs.sep.pos e he
  · rw [List.pairwise_map]
    apply hs.sep.gap.imp_of_mem
    intro a b ha hb hgap
    rw [hprop a ha]
    exact hgap
  · intro q hlo hhi
    rw [hs.head q hlo hhi, List.mem_map]
  · intro q
    rw [← hs.free q]
    constructor
    · intro h
      obtain ⟨b, hb, hle, hlt⟩ := h
      obtain ⟨e, he, rfl⟩ := List.mem_map.1 hb
      rw [hprop e he] at hlt
      exact ⟨e, he, hle, hlt⟩
    · intro h
      obtain ⟨e, he, hle, hlt⟩ := h
      refine ⟨e.start, List.mem_map_of_mem he, hle, ?_⟩
      rw [hprop e he]
      exact hlt
  · rw [hs.nrFree, List.map_map, total]
    apply congrArg List.sum
    apply List.map_congr_left
    intro e he
    exact (hprop e he).symm

/-- A list whose last block is its own predecessor represents nothing. -/
theorem not_represented {base : Nat}
    (hlast : s.pmm.links.prev .freeList = .pageLink base)
    (hself : s.pmm.links.prev (.pageLink base) = .pageLink base) :
    ¬ Represented lo hi s := by
  intro h
  obtain ⟨blocks, hs⟩ := h
  exact not_path_prev hlast hself hs.backward

end FreeList

-- ================================================ the tail insertion

section Tail

variable {lo hi n base fuel : Nat} {s : Pmm} {A : Finset Nat}
  {l : List Extent}

/-- A block that is released while some page is free, but none above it,
ends up its own predecessor. -/
theorem Repr.free_tail {s' : Pmm} (hs : Repr lo hi s A l) (hn : 0 < n)
    (hheld : Finset.Ico base (base + n) ⊆ A)
    (hbelow : ¬ ((∀ q, lo ≤ q → q < hi → q ∈ A)
      ∨ ∃ q, base < q ∧ q < hi ∧ q ∉ A))
    (h : defaultFreePages fuel base n s = some s') :
    TailLinked s'.links base := by
  obtain ⟨pre, suf, rfl, hpre, hprestop, hsuf⟩ := hs.holds.release_cut hn hheld
  have htail : ¬ (suf = [] → pre = []) := by
    intro htail
    apply hbelow
    rcases (hs.holds.tail_iff hn hprestop hsuf).1 htail with
      hall | ⟨q, hq, hlt, hfree⟩
    · exact Or.inl fun q h1 h2 => hall q (Finset.mem_Ico.2 ⟨h1, h2⟩)
    · exact Or.inr ⟨q, hlt, (Finset.mem_Ico.1 hq).2, hfree⟩
  obtain ⟨hnil, hne⟩ := Classical.not_imp.1 htail
  subst hnil
  have hheld' : Holds (Finset.Ico lo hi) s A pre := by
    have hholds := hs.holds
    rwa [List.append_nil] at hholds
  exact hheld'.free_tail hn hheld hpre hne h

end Tail

-- ============================================================== runs

/-- In a run whose releases are all `FreeAbove` the free list represents the
free pages, and a further call keeps it so exactly when it is. -/
theorem free_list_represented {fuel lo n : Nat} {pmm : Pmm} {s₀ s : Sys}
    (hw : n < 2 ^ 32) (hinit : initSys fuel lo n pmm = some s₀)
    (hrun : Relation.ReflTransGen (StepFreeAbove lo (lo + n)) s₀ s) :
    Represented lo (lo + n) s
      ∧ ∀ fuel op s', s.exec fuel op = some s' →
        (Represented lo (lo + n) s' ↔ FreeAbove lo (lo + n) s op) := by
  have hrepr : ∃ l, Repr lo (lo + n) s.pmm s.allocd l := by
    induction hrun with
    | refl => exact ⟨_, initSys_repr hw hinit⟩
    | tail _ hstep ih =>
        obtain ⟨l, hs⟩ := ih
        exact hs.step hstep
  obtain ⟨l, hs⟩ := hrepr
  refine ⟨⟨_, hs.freeList⟩, ?_⟩
  intro fuel op s' hexec
  constructor
  · intro hrep
    by_contra hbelow
    cases op with
    | alloc k => exact hbelow trivial
    | free base k =>
        rw [Sys.exec] at hexec
        by_cases hheld : Finset.Ico base (base + k) ⊆ s.allocd
        · rw [if_pos hheld] at hexec
          cases hf : defaultFreePages fuel base k s.pmm with
          | none =>
              rw [hf] at hexec
              cases hexec
          | some pmm' =>
              rw [hf] at hexec
              cases hexec
              have hk : 0 < k := by
                apply Nat.pos_of_ne_zero
                intro hzero
                rw [defaultFreePages, if_pos hzero] at hf
                cases hf
              have htail := hs.free_tail hk hheld hbelow hf
              exact not_represented htail.last htail.self hrep
        · rw [if_neg hheld] at hexec
          cases hexec
  · intro habove
    obtain ⟨l', hs'⟩ := hs.step ⟨fuel, op, hexec, habove⟩
    exact ⟨_, hs'.freeList⟩

/-- Four pages: two are taken, the first is given back. -/
theorem free_list_represented_four : ∃ s₀ s,
    initSys 9 0 4 reservedPages = some s₀
      ∧ Relation.ReflTransGen (StepFreeAbove 0 4) s₀ s
      ∧ Represented 0 4 s := by
  obtain ⟨s₀, hinit⟩ : ∃ s₀, initSys 9 0 4 reservedPages = some s₀ :=
    ⟨_, rfl⟩
  obtain ⟨s₁, halloc⟩ : ∃ s₁, s₀.exec 9 (.alloc 2) = some s₁ := by
    cases hinit
    exact ⟨_, rfl⟩
  have habove : 2 ∉ s₁.allocd := by
    cases hinit
    cases halloc
    decide +kernel
  obtain ⟨s₂, hfree⟩ : ∃ s₂, s₁.exec 9 (.free 0 1) = some s₂ := by
    cases hinit
    cases halloc
    exact ⟨_, rfl⟩
  have hrun : Relation.ReflTransGen (StepFreeAbove 0 4) s₀ s₂ :=
    (Relation.ReflTransGen.single ⟨9, _, halloc, trivial⟩).tail
      ⟨9, _, hfree, Or.inr ⟨2, by decide, by decide, habove⟩⟩
  exact ⟨s₀, s₂, hinit, hrun,
    (free_list_represented (by decide) hinit hrun).1⟩

/-- Three pages taken one by one; the first and the last are given back. -/
def loopOps : List Op :=
  [.alloc 1, .alloc 1, .alloc 1, .free 0 1, .free 2 1]

/-- What `prev` leads to from the head and from page 2 after `loopOps`. -/
def loopOutcome : Option (Entry × Entry) :=
  match initSys 9 0 3 reservedPages with
  | none => none
  | some s₀ =>
      (s₀.execs 9 loopOps).map fun s =>
        (s.pmm.links.prev .freeList, s.pmm.links.prev (.pageLink 2))

/-- After `loopOps` page 2 is its own predecessor. -/
theorem tail_release_loops :
    ¬ ∀ (fuel lo n : Nat) (pmm : Pmm) (s₀ s : Sys), n < 2 ^ 32 →
      initSys fuel lo n pmm = some s₀ →
      Relation.ReflTransGen Step s₀ s → Represented lo (lo + n) s := by
  intro hall
  have hout : loopOutcome = some (.pageLink 2, .pageLink 2) := by
    decide +kernel
  unfold loopOutcome at hout
  cases hinit : initSys 9 0 3 reservedPages with
  | none =>
      rw [hinit] at hout
      cases hout
  | some s₀ =>
      rw [hinit] at hout
      obtain ⟨s, hops, hprev⟩ := Option.map_eq_some_iff.1 hout
      have hrep := hall 9 0 3 reservedPages s₀ s (by decide) hinit
        (Sys.execs_run hops)
      obtain ⟨hlast, hself⟩ := Prod.mk.inj hprev
      exact not_represented hlast hself hrep

end Ucore.DefaultPmm
