/-
Runs of the best-fit allocator.

A run hands regions to `best_fit_init_memmap`, in any order, and then calls
`best_fit_alloc_pages` and `best_fit_free_pages`. `Sys` is the memory with
the pages of the regions, the pages the callers hold, and the blocks that
`best_fit_free_pages` put on the list; `Coalesced` is what is asked of the
free list.

# The three ways to lose the order

A region above all those before it is added behind the head, that is at the
front of the list. A release above every free block is added at the tail and
then behind itself. And a release merges with the block after it once: two
regions that touch are two blocks, and a release before both of them merges
with the first only. A run that does none of the three (`Below`, `Settles`)
keeps the list coalesced, and the first call that does one of them ends
that (`best_fit_coalesced`).
-/
import Mathlib.Logic.Relation
import Ucore.Mm.BestFitPmm
import Ucore.Mm.Proofs.PageBlocks

namespace Ucore.BestFitPmm

open DefaultPmm Ring Extent

-- =========================================================== systems

/-- The allocator's memory, the pages of the regions, the pages that are
allocated, and the blocks on the list that `best_fit_free_pages` put
there. -/
structure Sys where
  pmm : Pmm
  managed : Finset Nat
  allocd : Finset Nat
  freed : Finset Nat

/-- A call after the initialisation. -/
inductive Op where
  | alloc (n : Nat)
  | free (base n : Nat)

/-- The pages a call to `best_fit_alloc_pages` grants. -/
def granted (r : Option Nat) (n : Nat) : Finset Nat :=
  match r with
  | none => ∅
  | some p => Finset.Ico p (p + n)

/-- Those of some pages that head a block. -/
def heads (pmm : Pmm) (F : Finset Nat) : Finset Nat :=
  F.filter fun p => (pmm.pages p).pgProperty = true

/-- The memory after `best_fit_init`. -/
def start (pmm : Pmm) : Sys := ⟨bestFitInit pmm, ∅, ∅, ∅⟩

/-- Hand a region to `best_fit_init_memmap`. Regions are disjoint. -/
def Sys.addRegion (fuel : Nat) (s : Sys) (base n : Nat) : Option Sys :=
  if Disjoint s.managed (Finset.Ico base (base + n)) then
    match bestFitInitMemmap fuel base n s.pmm with
    | none => none
    | some pmm =>
        some { s with
          pmm := pmm, managed := s.managed ∪ Finset.Ico base (base + n) }
  else none

/-- One call. Callers only give back pages they hold. -/
def Sys.exec (fuel : Nat) (s : Sys) : Op → Option Sys
  | .alloc n =>
      match bestFitAllocPages fuel n s.pmm with
      | none => none
      | some (r, pmm) =>
          some { s with
            pmm := pmm
            allocd := s.allocd ∪ granted r n
            freed := heads pmm s.freed }
  | .free base n =>
      if Finset.Ico base (base + n) ⊆ s.allocd then
        match bestFitFreePages fuel base n s.pmm with
        | none => none
        | some pmm =>
            some { s with
              pmm := pmm
              allocd := s.allocd \ Finset.Ico base (base + n)
              freed := heads pmm (insert base s.freed) }
      else none

-- ===================================================== the free list

/-- The extents of the free list, as headers and links say: they come in
the order of their addresses, and where one ends as the next begins,
neither was put there by `best_fit_free_pages`. -/
structure InOrder (s : Sys) (l : List Extent) : Prop where
  ring : IsRing s.pmm.links .freeList (cells l)
  property : ∀ e ∈ l, (s.pmm.pages e.start).property = e.len
  order : l.Pairwise fun a b => a.start < b.start
  apart : ∀ a ∈ l, ∀ b ∈ l, a.stop = b.start →
    a.start ∉ s.freed ∧ b.start ∉ s.freed

/-- The free list is ordered, and coalesced around what was freed. -/
def Coalesced (s : Sys) : Prop := ∃ l, InOrder s l

/-- A region is the first one, or not above all those before it. -/
def Below (s : Sys) (base : Nat) : Prop :=
  s.managed = ∅ ∨ ∃ q ∈ s.managed, base < q

/-- A managed page heads a free block. -/
def Heads (s : Sys) (p : Nat) : Prop :=
  p ∈ s.managed ∧ (s.pmm.pages p).pgProperty = true

/-- The pages end where a block begins, that block ends where another
begins, and they do not go into a block from the initialisation. -/
structure Chained (s : Sys) (base n : Nat) : Prop where
  next : Heads s (base + n)
  beyond : Heads s (base + n + (s.pmm.pages (base + n)).property)
  before : ∀ p, Heads s p → p + (s.pmm.pages p).property = base →
    p ∈ s.freed

/-- A release stays off the tail of a nonempty list and touches no two
blocks in a row. -/
def Settles (s : Sys) : Op → Prop
  | .alloc _ => True
  | .free base n =>
      ((∀ q ∈ s.managed, q ∈ s.allocd)
        ∨ ∃ q ∈ s.managed, base < q ∧ q ∉ s.allocd)
      ∧ ¬ Chained s base n

/-- One more region, below another one. -/
def RegionBelow (s s' : Sys) : Prop :=
  ∃ fuel base n, s.addRegion fuel base n = some s' ∧ Below s base

/-- One more call, which settles. -/
def StepSettles (s s' : Sys) : Prop :=
  ∃ fuel op, s.exec fuel op = some s' ∧ Settles s op

-- ========================================================= invariant

/-- No extent touches the one after it when either begins in `F`. -/
def Apart (F : Finset Nat) (l : List Extent) : Prop :=
  l.Pairwise fun a b => a.stop = b.start → a.start ∉ F ∧ b.start ∉ F

/-- What the calls keep. -/
structure Kept (s : Sys) (l : List Extent) : Prop
    extends Holds s.managed s.pmm s.allocd l where
  freed : ∀ p ∈ s.freed, ∃ e ∈ l, e.start = p
  apart : Apart s.freed l

section Apart

variable {F F' : Finset Nat} {pre suf : List Extent} {e : Extent} {n : Nat}

theorem apart_append {l l' : List Extent} : Apart F (l ++ l') ↔ Apart F l
    ∧ Apart F l' ∧ ∀ a ∈ l, ∀ b ∈ l', a.stop = b.start →
      a.start ∉ F ∧ b.start ∉ F :=
  List.pairwise_append

theorem apart_cons {l : List Extent} : Apart F (e :: l) ↔
    (∀ b ∈ l, e.stop = b.start → e.start ∉ F ∧ b.start ∉ F) ∧ Apart F l :=
  List.pairwise_cons

/-- Fewer pages, or none of those the extents begin with, break less. -/
theorem Apart.mono {l : List Extent} (h : Apart F l)
    (hF : ∀ a ∈ l, a.start ∈ F' → a.start ∈ F) : Apart F' l := by
  apply List.Pairwise.imp_of_mem _ h
  intro a b ha hb hab htouch
  obtain ⟨h1, h2⟩ := hab htouch
  exact ⟨fun hin => h1 (hF a ha hin), fun hin => h2 (hF b hb hin)⟩

/-- What is left of an extent touches what the extent touched after it, and
nothing before it. -/
theorem Apart.carve (h : Apart F (pre ++ e :: suf))
    (hl : Laid (pre ++ e :: suf)) (hn : 0 < n)
    (hnew : n < e.len → e.start + n ∉ F) :
    Apart F (pre ++ rest e n ++ suf) := by
  obtain ⟨hpre, hsuf, hcross⟩ := apart_append.1 h
  obtain ⟨hesuf, hsuf⟩ := apart_cons.1 hsuf
  unfold rest
  split
  case isFalse =>
    rw [List.append_nil, apart_append]
    exact ⟨hpre, hsuf,
      fun a ha b hb => hcross a ha b (List.mem_cons_of_mem e hb)⟩
  case isTrue hlt =>
    rw [List.append_assoc, List.singleton_append, apart_append, apart_cons]
    refine ⟨hpre, ⟨fun b hb htouch => ?_, hsuf⟩, fun a ha b hb htouch => ?_⟩
    · have hstop : e.stop = b.start := by
        simp only [stop] at htouch ⊢
        omega
      exact ⟨hnew hlt, (hesuf b hb hstop).2⟩
    · rcases List.mem_cons.1 hb with rfl | hb
      · obtain ⟨-, -, hgap⟩ := spaced_append.1 hl
        have hae := hgap a ha e List.mem_cons_self
        simp only at htouch
        omega
      · exact hcross a ha b (List.mem_cons_of_mem e hb) htouch

/-- What the left merge makes of a released extent ends where it did, and
begins at a page of `F` only where nothing that ends at it does not. -/
theorem mergeLeft_apart (h : Apart F pre) (hl : Laid pre)
    (hpre : ∀ a ∈ pre, a.stop ≤ e.start)
    (hF : ∀ a ∈ pre, a.start ∈ F' → a.start ∈ F) :
    (mergeLeft pre e).2.stop = e.stop
      ∧ (∀ a ∈ (mergeLeft pre e).1, a ∈ pre
        ∧ (a.stop = (mergeLeft pre e).2.start →
          a.start ∉ F' ∧ (mergeLeft pre e).2.start ∉ F'))
      ∧ Apart F' (mergeLeft pre e).1
      ∧ ((∃ p ∈ pre, p.stop = e.start ∧ p.start ∉ F) →
        (mergeLeft pre e).2.start ∉ F') := by
  have hF' := h.mono hF
  rcases mergeLeft_cases hl hpre with ⟨heq, hnone⟩ | ⟨pre', p, rfl, htouch, heq⟩
  · rw [heq]
    refine ⟨rfl, fun a ha => ⟨ha, fun hae => absurd hae (hnone a ha)⟩, hF',
      fun hp => ?_⟩
    obtain ⟨p, hp, hpe, -⟩ := hp
    exact absurd hpe (hnone p hp)
  · rw [heq]
    obtain ⟨hpre', -, hcross⟩ := apart_append.1 hF'
    refine ⟨?_, fun a ha => ⟨List.mem_append_left _ ha, fun hap => ?_⟩, hpre',
      fun hp hin => ?_⟩
    · simp only [stop] at htouch ⊢
      omega
    · exact hcross a ha p (List.mem_singleton_self p) hap
    · obtain ⟨p', hp', hpe, hout⟩ := hp
      have hmem : p ∈ pre' ++ [p] := by simp
      have hsame : p' = p := by
        have hpos := hl.pos p hmem
        have hpos' := hl.pos p' hp'
        apply hl.has_unique hp' hmem (q := e.start - 1)
        · simp only [Has, stop] at hpe ⊢
          omega
        · simp only [Has, stop] at htouch ⊢
          omega
      rw [hsame] at hout
      exact hout (hF p hmem hin)

section Release

variable (hl : Laid (pre ++ suf)) (hpre : ∀ a ∈ pre, a.stop ≤ e.start)
  (hsuf : ∀ b ∈ suf, e.stop ≤ b.start)

include hl hpre hsuf

/-- Coalescing leaves a released extent touching nothing, unless what it
merges with on the right touches another one. -/
theorem Apart.coalesce (h : Apart F (pre ++ suf))
    (hF : ∀ a ∈ pre ++ suf, a.start ∈ F' → a.start ∈ F)
    (hchain : ∀ q ∈ suf, ∀ r ∈ suf, e.stop = q.start → q.stop = r.start →
      ∃ p ∈ pre, p.stop = e.start ∧ p.start ∉ F) :
    Apart F' (Extent.coalesce pre e suf) := by
  obtain ⟨hlpre, hlsuf, -⟩ := spaced_append.1 hl
  obtain ⟨hapre, hasuf, hcross⟩ := apart_append.1 h
  obtain ⟨-, hasuf', hcross'⟩ := apart_append.1 (h.mono hF)
  obtain ⟨hstop, hleft, hrest, hstart⟩ := mergeLeft_apart hapre hlpre hpre
    fun a ha => hF a (List.mem_append_left suf ha)
  have hsuf' : ∀ b ∈ suf, (mergeLeft pre e).2.stop ≤ b.start := by
    intro b hb
    rw [hstop]
    exact hsuf b hb
  unfold Extent.coalesce
  rcases mergeRight_cases hlsuf hsuf' with
    ⟨heq, hnone⟩ | ⟨q, suf', rfl, htouch, heq⟩
  · rw [heq, apart_append, apart_cons]
    refine ⟨hrest, ⟨fun b hb hmb => absurd hmb (hnone b hb), hasuf'⟩, ?_⟩
    intro a ha b hb hab
    rcases List.mem_cons.1 hb with rfl | hb
    · exact (hleft a ha).2 hab
    · exact hcross' a (hleft a ha).1 b hb hab
  · rw [heq, apart_append, apart_cons]
    obtain ⟨hqsuf, hasuf''⟩ := apart_cons.1 hasuf'
    refine ⟨hrest, ⟨fun b hb hmb => ?_, hasuf''⟩, ?_⟩
    · -- the merged extent ends where the one it took in did
      have hqb : q.stop = b.start := by
        simp only [stop] at htouch hmb ⊢
        omega
      rw [hstop] at htouch
      have hp := hchain q List.mem_cons_self b (List.mem_cons_of_mem q hb)
        htouch hqb
      exact ⟨hstart hp, (hqsuf b hb hqb).2⟩
    · intro a ha b hb hab
      rcases List.mem_cons.1 hb with rfl | hb
      · exact (hleft a ha).2 hab
      · exact hcross' a (hleft a ha).1 b (List.mem_cons_of_mem q hb) hab

/-- Two extents in a row after a released one: it is merged with the first
and touches the second. -/
theorem coalesce_touches {q r : Extent} (hq : q ∈ suf) (hr : r ∈ suf)
    (heq : e.stop = q.start) (hqr : q.stop = r.start) :
    ∃ a ∈ Extent.coalesce pre e suf, ∃ b ∈ Extent.coalesce pre e suf,
      a.stop = b.start
        ∧ (a.start = e.start ∨ ∃ p ∈ pre, p.stop = e.start
          ∧ a.start = p.start) := by
  obtain ⟨hlpre, hlsuf, -⟩ := spaced_append.1 hl
  obtain ⟨hstop, hstart⟩ : (mergeLeft pre e).2.stop = e.stop
      ∧ ((mergeLeft pre e).2.start = e.start ∨ ∃ p ∈ pre, p.stop = e.start
        ∧ (mergeLeft pre e).2.start = p.start) := by
    rcases mergeLeft_cases hlpre hpre with ⟨hm, -⟩ | ⟨pre', p, rfl, htouch, hm⟩
    · rw [hm]
      exact ⟨rfl, Or.inl rfl⟩
    · rw [hm]
      refine ⟨?_, Or.inr ⟨p, by simp, htouch, rfl⟩⟩
      simp only [stop] at htouch ⊢
      omega
  have hsuf' : ∀ b ∈ suf, (mergeLeft pre e).2.stop ≤ b.start := by
    intro b hb
    rw [hstop]
    exact hsuf b hb
  unfold Extent.coalesce
  rcases mergeRight_cases hlsuf hsuf' with
    ⟨-, hnone⟩ | ⟨x, suf', rfl, htouch, hm⟩
  · exact absurd (hstop.trans heq) (hnone q hq)
  · have hqx : q = x := by
      have hposq := hlsuf.pos q hq
      have hposx := hlsuf.pos x List.mem_cons_self
      apply Laid.has_unique hlsuf hq List.mem_cons_self (q := q.start)
      · simp only [Has, stop]
        omega
      · rw [hstop] at htouch
        simp only [Has, stop] at *
        omega
    subst hqx
    have hrest : r ∈ suf' := by
      rcases List.mem_cons.1 hr with rfl | hr
      · have hposr := hlsuf.pos r List.mem_cons_self
        simp only [stop] at hqr
        omega
      · exact hr
    rw [hm]
    refine ⟨⟨(mergeLeft pre e).2.start, (mergeLeft pre e).2.len + q.len⟩,
      by simp, r, by simp [hrest], ?_, hstart⟩
    simp only [stop] at *
    omega

end Release

end Apart

section Kept

variable {s s' : Sys} {l l' pre suf : List Extent} {fuel base n : Nat}

/-- In a laid out list the extent that touches another comes before it. -/
theorem touch_of_pairwise {R : Extent → Extent → Prop} (hl : Laid l)
    (hR : l.Pairwise fun a b => a.stop = b.start → R a b) :
    ∀ a ∈ l, ∀ b ∈ l, a.stop = b.start → R a b := by
  intro a ha b hb htouch
  have hapos := hl.pos a ha
  have hbpos := hl.pos b hb
  obtain ⟨xs, ys, rfl⟩ := List.append_of_mem ha
  obtain ⟨-, -, hbefore⟩ := spaced_append.1 hl
  obtain ⟨-, hrow, -⟩ := List.pairwise_append.1 hR
  rcases List.mem_append.1 hb with hb | hb
  · have hgap := hbefore b hb a List.mem_cons_self
    simp only [stop] at *
    omega
  · rcases List.mem_cons.1 hb with rfl | hb
    · simp only [stop] at htouch
      omega
    · exact (List.pairwise_cons.1 hrow).1 b hb htouch

theorem Kept.inOrder (h : Kept s l) : InOrder s l :=
  ⟨h.ring, h.property, h.laid.starts, touch_of_pairwise h.laid h.apart⟩

/-- Headers and links determine the extents. -/
theorem InOrder.unique {M : Finset Nat} (h : InOrder s l)
    (hb : Blocks M s.pmm l') : l = l' := by
  have hcells := h.ring.unique hb.ring
  have hstarts : l.map Extent.start = l'.map Extent.start := by
    have hmap := congrArg (List.map le2page) hcells
    simp only [cells, List.map_map] at hmap
    exact hmap
  have hback : ∀ xs : List Extent,
      (∀ e ∈ xs, (s.pmm.pages e.start).property = e.len) →
      (xs.map Extent.start).map
        (fun p => Extent.mk p (s.pmm.pages p).property) = xs := by
    intro xs hxs
    rw [List.map_map]
    conv_rhs => rw [← List.map_id xs]
    apply List.map_congr_left
    intro e he
    simp only [Function.comp_apply, hxs e he, id_eq]
  rw [← hback l h.property, hstarts, hback l' hb.property]

/-- A managed page heads a block when an extent starts there. -/
theorem Kept.heads_iff (h : Kept s l) {p : Nat} :
    Heads s p ↔ ∃ e ∈ l, e.start = p := by
  constructor
  · intro hp
    exact (h.head p hp.1).1 hp.2
  · intro hp
    obtain ⟨e, he, rfl⟩ := hp
    have hm := h.start_mem he
    exact ⟨hm, (h.head _ hm).2 ⟨e, he, rfl⟩⟩

-- =========================================================== regions

/-- The links once a region is put before the blocks above it, or behind
the head when there are none. -/
def placed (m : Links Entry) (base : Nat) : List Extent → Links Entry
  | [] => listAdd m .freeList (.pageLink base)
  | b :: _ => listAddBefore m (.pageLink b.start) (.pageLink base)

/-- The insertion loop of `best_fit_init_memmap` stops at the first block
above `base`, or at the head. -/
theorem placeLoop_spec {m m' : Links Entry} {vis mid : List Extent}
    (hr : IsRing m .freeList (cells (vis ++ mid ++ suf)))
    (hmid : ∀ a ∈ mid, ¬ base < a.start)
    (hsuf : ∀ b ∈ suf, base < b.start)
    (h : placeLoop base fuel m (before .freeList (cells vis)) = some m') :
    m' = placed m base suf := by
  induction mid generalizing vis fuel with
  | nil =>
      cases fuel with
      | zero => cases h
      | succ fuel =>
          rw [List.append_nil, cells_append] at hr
          have hnext : listNext m (before .freeList (cells vis))
              = after .freeList (cells suf) := hr.next_before
          rw [placeLoop] at h
          simp only [hnext] at h
          cases suf with
          | nil =>
              simp only [cells_nil, after_nil, if_true] at h
              exact (Option.some.inj h).symm
          | cons b suf =>
              have hb := hsuf b List.mem_cons_self
              simp only [cells_cons, after_cons, reduceCtorEq, if_false,
                le2page, hb, if_true] at h
              exact (Option.some.inj h).symm
  | cons a mid ih =>
      cases fuel with
      | zero => cases h
      | succ fuel =>
          have hr' : IsRing m .freeList
              (cells ((vis ++ [a]) ++ mid ++ suf)) := by
            simpa using hr
          have hnext : listNext m (before .freeList (cells vis))
              = .pageLink a.start := by
            rw [List.append_assoc, List.cons_append, cells_append,
              cells_cons] at hr
            exact hr.next_before
          have ha := hmid a List.mem_cons_self
          rw [placeLoop] at h
          simp only [hnext, le2page, reduceCtorEq, if_false, ha] at h
          apply ih hr' (fun b hb => hmid b (List.mem_cons_of_mem a hb))
          rw [cells_append, cells_cons, cells_nil, before_concat]
          exact h

/-- Where `best_fit_init_memmap` puts a region: in its place when some
block is above it, and at the front when none is. -/
theorem placeBlock_spec {m m' : Links Entry}
    (hr : IsRing m .freeList (cells (pre ++ suf)))
    (hpre : ∀ a ∈ pre, a.start < base) (hsuf : ∀ b ∈ suf, base < b.start)
    (h : placeBlock fuel m base = some m') :
    (suf ≠ [] → IsRing m' .freeList (cells (pre ++ ⟨base, n⟩ :: suf)))
      ∧ (suf = [] → IsRing m' .freeList (cells (⟨base, n⟩ :: pre))) := by
  have hfresh : Entry.pageLink base ∉ .freeList :: cells (pre ++ suf) := by
    intro hmem
    rcases List.mem_cons.1 hmem with heq | hmem
    · cases heq
    · obtain ⟨a, ha, heq⟩ := mem_cells.1 hmem
      rcases List.mem_append.1 ha with ha | ha
      · exact absurd heq (Nat.ne_of_lt (hpre a ha))
      · exact absurd heq (Nat.ne_of_gt (hsuf a ha))
  have hm' : m' = placed m base suf := by
    unfold placeBlock at h
    by_cases hempty : listEmpty m .freeList = true
    · have hcells := (listEmpty_ring hr).1 hempty
      have hnil : pre ++ suf = [] := List.map_eq_nil_iff.1 hcells
      obtain ⟨-, rfl⟩ := List.append_eq_nil_iff.1 hnil
      rw [if_pos hempty] at h
      exact (Option.some.inj h).symm
    · rw [if_neg hempty] at h
      have hr' : IsRing m .freeList (cells ([] ++ pre ++ suf)) := hr
      exact placeLoop_spec hr'
        (fun a ha => Nat.not_lt.2 (Nat.le_of_lt (hpre a ha))) hsuf h
  subst hm'
  constructor
  · intro hne
    cases suf with
    | nil => exact absurd rfl hne
    | cons b suf =>
        rw [cells_append] at hr hfresh
        rw [cells_append, cells_cons]
        exact listAddBefore_ring hr hfresh
  · intro hnil
    subst hnil
    rw [List.append_nil] at hr hfresh
    exact listAdd_ring_head hr hfresh

/-- `best_fit_init_memmap` in terms of its parts. -/
theorem bestFitInitMemmap_eq {pmm pmm' : Pmm}
    (h : bestFitInitMemmap fuel base n pmm = some pmm') :
    0 < n ∧ ∃ pages links, initPages base n pmm.pages = some pages
      ∧ placeBlock fuel pmm.links base = some links
      ∧ pmm' = linkedIn pmm pages links base n := by
  unfold bestFitInitMemmap at h
  by_cases hn : n = 0
  · rw [if_pos hn] at h
    cases h
  · rw [if_neg hn] at h
    cases hp : initPages base n pmm.pages with
    | none =>
        rw [hp] at h
        cases h
    | some pages =>
        rw [hp] at h
        simp only [setPageProperty, setProperty, setPage_links] at h
        cases hl : placeBlock fuel pmm.links base with
        | none =>
            rw [hl] at h
            cases h
        | some links =>
            rw [hl] at h
            exact ⟨Nat.pos_of_ne_zero hn, pages, links, rfl, rfl,
              (Option.some.inj h).symm⟩

/-- What the calls keep while regions come in: nothing is allocated yet, and
nothing was freed. -/
structure Idle (s : Sys) (l : List Extent) : Prop extends Kept s l where
  allocd : s.allocd = ∅
  freed_empty : s.freed = ∅

/-- After `best_fit_init` the list is empty. -/
theorem start_idle (pmm : Pmm) : Idle (start pmm) [] where
  ring := listInit_ring pmm.links Entry.freeList
  inside := by simp
  property := by simp
  head := by simp [start]
  reserved := by simp [start]
  nrFree := rfl
  laid := spaced_nil
  free := by simp [Covers, start]
  held := fun q hq => hq
  count := rfl
  narrow := by simp [start]
  freed := by simp [start]
  apart := List.Pairwise.nil
  allocd := rfl
  freed_empty := rfl

/-- A region is put in its place when it is the first one or some region is
above it, and at the front when all are below. -/
theorem Idle.region (h : Idle s l) (hs : s.addRegion fuel base n = some s')
    (hw : s'.managed.card < 2 ^ 32) :
    (Below s base → ∃ l', Idle s' l')
      ∧ (¬ Below s base → ¬ Coalesced s') := by
  unfold Sys.addRegion at hs
  by_cases hdisj : Disjoint s.managed (Finset.Ico base (base + n))
  case neg =>
    rw [if_neg hdisj] at hs
    cases hs
  rw [if_pos hdisj] at hs
  cases hi : bestFitInitMemmap fuel base n s.pmm with
  | none =>
      rw [hi] at hs
      cases hs
  | some pmm' =>
      rw [hi] at hs
      cases hs
      obtain ⟨hn, pages, links, hpages, hlinks, rfl⟩ :=
        bestFitInitMemmap_eq hi
      have hnone : ∀ q, base ≤ q → q < base + n → q ∉ s.managed := by
        intro q h1 h2 hq
        exact Finset.disjoint_left.1 hdisj hq (Finset.mem_Ico.2 ⟨h1, h2⟩)
      have hnot : ∀ q, base ≤ q → q < base + n → ¬ Covers l q :=
        fun q h1 h2 hc => hnone q h1 h2 ((h.free q).1 hc).1
      obtain ⟨pre, suf, rfl, hpre, hprestop, hsuf⟩ :=
        h.laid.cut_around hn hnot
      have hcard := Finset.card_union_of_disjoint hdisj
      rw [Nat.card_Ico] at hcard
      have hcount := h.count
      rw [h.nrFree, h.allocd, Finset.card_empty] at hcount
      have hfit : total (pre ++ suf) + n < 2 ^ 32 := by
        simp only at hw
        omega
      have hout : ∀ a ∈ pre ++ suf,
          ¬ (base ≤ a.start ∧ a.start < base + n) := by
        intro a ha hin
        exact hnone a.start hin.1 hin.2 (h.start_mem ha)
      have hclear : ∀ q, base ≤ q → q < base + n →
          (pages q).pgReserved = false ∧ (pages q).pgProperty = false := by
        intro q h1 h2
        rw [initPages_spec hpages h1 h2]
        exact ⟨rfl, rfl⟩
      have hframe : ∀ q, ¬ (base ≤ q ∧ q < base + n) →
          (pages q).property = (s.pmm.pages q).property
            ∧ (pages q).pgReserved = (s.pmm.pages q).pgReserved
            ∧ (pages q).pgProperty = (s.pmm.pages q).pgProperty := by
        intro q hq
        rw [initPages_frame hpages hq]
        exact ⟨rfl, rfl, rfl⟩
      obtain ⟨hmiddle, hfront⟩ := placeBlock_spec (n := n) h.ring hpre
        (fun b hb => Nat.lt_of_lt_of_le (by omega) (hsuf b hb)) hlinks
      have hbelow : (suf = [] → pre = []) ↔ Below s base := by
        rw [h.toHolds.tail_iff hn hprestop hsuf, h.allocd]
        unfold Below
        simp [Finset.eq_empty_iff_forall_notMem]
      refine ⟨fun hb => ?_, fun hb => ?_⟩
      · have hring : IsRing links .freeList
            (cells (pre ++ ⟨base, n⟩ :: suf)) := by
          cases suf with
          | nil =>
              have hnil := hbelow.2 hb rfl
              subst hnil
              exact hfront rfl
          | cons b suf => exact hmiddle (List.cons_ne_nil b suf)
        have hblocks := h.toBlocks.linkedIn hn hout hfit hclear hframe hring
        have hcovers : ∀ q, Covers (pre ++ ⟨base, n⟩ :: suf) q
            ↔ q ∈ s.managed ∪ Finset.Ico base (base + n) := by
          intro q
          have hold : Covers (pre ++ suf) q ↔ q ∈ s.managed := by
            rw [h.free, h.allocd]
            simp
          rw [covers_append] at hold
          rw [covers_append, covers_cons, Finset.mem_union, Finset.mem_Ico,
            ← hold]
          simp only [Has, stop]
          tauto
        have hkept : Kept
            ⟨linkedIn s.pmm pages links base n,
              s.managed ∪ Finset.Ico base (base + n), s.allocd, s.freed⟩
            (pre ++ ⟨base, n⟩ :: suf) := by
          refine { hblocks with
            laid := h.laid.insert hn hprestop hsuf
            free := fun q => ?_
            held := h.held.trans Finset.subset_union_left
            count := ?_
            narrow := hw
            freed := by simp [h.freed_empty]
            apart := ?_ }
          · rw [hcovers, h.allocd]
            simp
          · rw [hblocks.nrFree, h.allocd, Finset.card_empty]
            simp only [total_append, total_cons] at hcount ⊢
            omega
          · rw [h.freed_empty]
            exact List.pairwise_of_forall fun a b _ => ⟨by simp, by simp⟩
        exact ⟨_, { hkept with
          allocd := h.allocd
          freed_empty := h.freed_empty }⟩
      · obtain ⟨hnil, hne⟩ := Classical.not_imp.1 (mt hbelow.1 hb)
        subst hnil
        intro hco
        obtain ⟨l', hl'⟩ := hco
        have hback : Blocks s.managed s.pmm ([] ++ pre) := by
          have hblocks := h.toBlocks
          rwa [List.append_nil] at hblocks
        rw [List.append_nil] at hfit hout
        have hblocks := hback.linkedIn hn hout hfit hclear hframe (hfront rfl)
        rw [hl'.unique hblocks] at hl'
        obtain ⟨a, pre', rfl⟩ := List.exists_cons_of_ne_nil hne
        have horder := (List.pairwise_cons.1 hl'.order).1 a List.mem_cons_self
        have hless := hpre a List.mem_cons_self
        simp only at horder
        omega

-- ======================================================== allocation

/-- The search loop returns what it has, or a block it has not passed that
is large enough. -/
theorem bestBlock_spec {M : Finset Nat} {pmm : Pmm} {minSize : Nat}
    {best r : Option Nat} (hb : Blocks M pmm (pre ++ suf))
    (h : bestBlock pmm n fuel (before .freeList (cells pre)) minSize best
      = some r) :
    r = best ∨ ∃ e ∈ suf, n ≤ e.len ∧ r = some e.start := by
  induction suf generalizing pre fuel minSize best with
  | nil =>
      cases fuel with
      | zero => cases h
      | succ fuel =>
          have hring := hb.ring
          rw [cells_append] at hring
          have hnext : listNext pmm.links (before .freeList (cells pre))
              = .freeList := hring.next_before
          rw [bestBlock] at h
          simp only [hnext, if_true] at h
          exact Or.inl (Option.some.inj h).symm
  | cons e suf ih =>
      cases fuel with
      | zero => cases h
      | succ fuel =>
          have hring := hb.ring
          rw [cells_append] at hring
          have hnext : listNext pmm.links (before .freeList (cells pre))
              = .pageLink e.start := hring.next_before
          have hprop := hb.property e (by simp)
          have hb' : Blocks M pmm ((pre ++ [e]) ++ suf) := by
            rw [List.append_assoc]
            exact hb
          have hcell : before .freeList (cells (pre ++ [e]))
              = .pageLink e.start := by
            rw [cells_append, cells_cons, cells_nil, before_concat]
          have hrec := @ih (pre ++ [e])
          rw [hcell] at hrec
          rw [bestBlock] at h
          simp only [hnext, reduceCtorEq, if_false, le2page, hprop] at h
          by_cases hfit : n ≤ e.len ∧ e.len < minSize
          · rw [if_pos hfit] at h
            rcases hrec hb' h with hr | ⟨a, ha, hle, hr⟩
            · exact Or.inr ⟨e, List.mem_cons_self, hfit.1, hr⟩
            · exact Or.inr ⟨a, List.mem_cons_of_mem e ha, hle, hr⟩
          · rw [if_neg hfit] at h
            rcases hrec hb' h with hr | ⟨a, ha, hle, hr⟩
            · exact Or.inl hr
            · exact Or.inr ⟨a, List.mem_cons_of_mem e ha, hle, hr⟩

/-- A call to `best_fit_alloc_pages` changes nothing, or takes pages off a
block of the list. -/
theorem Kept.alloc_cases {r : Option Nat} {pmm : Pmm} (h : Kept s l)
    (hs : bestFitAllocPages fuel n s.pmm = some (r, pmm)) :
    (r = none ∧ pmm = s.pmm)
      ∨ 0 < n ∧ ∃ e ∈ l, n ≤ e.len ∧ r = some e.start
        ∧ pmm = takeBlock s.pmm n e.start := by
  unfold bestFitAllocPages at hs
  by_cases hn : n = 0
  · rw [if_pos hn] at hs
    cases hs
  rw [if_neg hn] at hs
  by_cases hroom : s.pmm.nrFree < n
  · rw [if_pos hroom] at hs
    cases hs
    exact Or.inl ⟨rfl, rfl⟩
  rw [if_neg hroom] at hs
  have hblocks : Blocks s.managed s.pmm ([] ++ l) := h.toBlocks
  cases hb : bestBlock s.pmm n fuel .freeList (u32 (s.pmm.nrFree + 1))
      none with
  | none =>
      rw [hb] at hs
      cases hs
  | some best =>
      rw [hb] at hs
      rcases bestBlock_spec hblocks hb with hbest | ⟨e, he, hle, hbest⟩
      · subst hbest
        cases hs
        exact Or.inl ⟨rfl, rfl⟩
      · subst hbest
        cases hs
        exact Or.inr ⟨Nat.pos_of_ne_zero hn, e, he, hle, rfl, rfl⟩

/-- Blocks that were freed and still head a block are extents of the new
list. -/
theorem freed_of_heads {M F : Finset Nat} {pmm : Pmm} (hb : Blocks M pmm l)
    (hF : F ⊆ M) : ∀ p ∈ heads pmm F, ∃ e ∈ l, e.start = p := by
  intro p hp
  obtain ⟨hpF, hflag⟩ := Finset.mem_filter.1 hp
  exact (hb.head p (hF hpF)).1 hflag

theorem Kept.freed_sub (h : Kept s l) : s.freed ⊆ s.managed := by
  intro p hp
  obtain ⟨e, he, rfl⟩ := h.freed p hp
  exact h.start_mem he

/-- What is left of a block was not put on the list by
`best_fit_free_pages`, and touches only what the block touched. -/
theorem Kept.alloc (h : Kept s l) (hs : s.exec fuel (.alloc n) = some s') :
    ∃ l', Kept s' l' := by
  rw [Sys.exec] at hs
  cases ha : bestFitAllocPages fuel n s.pmm with
  | none =>
      rw [ha] at hs
      cases hs
  | some rp =>
      obtain ⟨r, pmm⟩ := rp
      rw [ha] at hs
      cases hs
      rcases h.alloc_cases ha with ⟨rfl, rfl⟩ | ⟨hn, e, he, hle, rfl, rfl⟩
      · have hsame : heads s.pmm s.freed = s.freed := by
          apply Finset.filter_true_of_mem
          intro p hp
          exact (h.heads_iff.2 (h.freed p hp)).2
        refine ⟨l, ?_⟩
        simp only [granted, Finset.union_empty, hsame]
        exact h
      · obtain ⟨pre, suf, rfl⟩ := List.append_of_mem he
        obtain ⟨-, hholds⟩ := h.toHolds.take hn hle
        have hfreed := freed_of_heads hholds.toBlocks h.freed_sub
        have hnew : n < e.len → e.start + n ∉ s.freed := by
          intro hlt hin
          obtain ⟨a, ha, hae⟩ := h.freed _ hin
          have hpos := h.laid.pos a ha
          have heq : a = e := by
            apply h.laid.has_unique ha he (q := e.start + n)
            · simp only [Has, stop]
              omega
            · simp only [Has, stop]
              omega
          rw [heq] at hae
          omega
        have hapart := h.apart.carve h.laid hn hnew
        exact ⟨_, ⟨hholds, hfreed,
          hapart.mono fun a _ hin => (Finset.mem_filter.1 hin).1⟩⟩

-- =========================================================== release

/-- A chain in terms of the list. -/
theorem Kept.chained_iff (h : Kept s (pre ++ suf)) (hn : 0 < n)
    (hpre : ∀ a ∈ pre, a.stop ≤ base) (hsuf : ∀ b ∈ suf, base + n ≤ b.start) :
    Chained s base n ↔ ∃ q ∈ suf, ∃ r ∈ suf, base + n = q.start
      ∧ q.stop = r.start ∧ ∀ p ∈ pre, p.stop = base → p.start ∈ s.freed := by
  have hafter : ∀ a ∈ pre ++ suf, base + n ≤ a.start → a ∈ suf := by
    intro a ha hle
    rcases List.mem_append.1 ha with hp | hs
    · have hpos := h.laid.pos a ha
      have hstop := hpre a hp
      simp only [stop] at hstop
      omega
    · exact hs
  constructor
  · intro hc
    obtain ⟨q, hq, hqs⟩ := h.heads_iff.1 hc.next
    obtain ⟨r, hr, hrs⟩ := h.heads_iff.1 hc.beyond
    rw [← hqs, h.property q hq] at hrs
    refine ⟨q, hafter q hq hqs.ge, r, hafter r hr ?_, hqs.symm, hrs.symm,
      fun p hp hpe => ?_⟩
    · rw [hrs, hqs]
      exact Nat.le_add_right _ _
    · have hmem : p ∈ pre ++ suf := List.mem_append_left suf hp
      apply hc.before p.start (h.heads_iff.2 ⟨p, hmem, rfl⟩)
      rw [h.property p hmem]
      exact hpe
  · intro hc
    obtain ⟨q, hq, r, hr, hqs, hqr, hkeep⟩ := hc
    have hqmem : q ∈ pre ++ suf := List.mem_append_right pre hq
    have hrmem : r ∈ pre ++ suf := List.mem_append_right pre hr
    refine ⟨h.heads_iff.2 ⟨q, hqmem, hqs.symm⟩, h.heads_iff.2 ⟨r, hrmem, ?_⟩,
      fun p hp hpe => ?_⟩
    · rw [hqs, h.property q hqmem]
      exact hqr.symm
    · obtain ⟨a, ha, rfl⟩ := h.heads_iff.1 hp
      rw [h.property a ha] at hpe
      apply hkeep a _ hpe
      rcases List.mem_append.1 ha with hap | has
      · exact hap
      · have hle := hsuf a has
        omega

/-- A release keeps the list coalesced exactly when it settles. -/
theorem Kept.release (h : Kept s l) (hs : s.exec fuel (.free base n) = some s') :
    (Settles s (.free base n) → ∃ l', Kept s' l')
      ∧ (¬ Settles s (.free base n) → ¬ Coalesced s') := by
  rw [Sys.exec] at hs
  by_cases hheld : Finset.Ico base (base + n) ⊆ s.allocd
  case neg =>
    rw [if_neg hheld] at hs
    cases hs
  rw [if_pos hheld, bestFitFreePages_eq] at hs
  cases hf : defaultFreePages fuel base n s.pmm with
  | none =>
      rw [hf] at hs
      cases hs
  | some pmm =>
      rw [hf] at hs
      cases hs
      have hn : 0 < n := by
        apply Nat.pos_of_ne_zero
        intro hzero
        rw [defaultFreePages, if_pos hzero] at hf
        cases hf
      obtain ⟨pre, suf, rfl, hpre, hsuf, hcall⟩ :=
        h.toHolds.free_pages hn hheld
      have hbase : ∀ a ∈ pre ++ suf, a.start ≠ base := by
        intro a ha heq
        have hfree := ((h.toHolds.free _).1 (h.covers_start ha)).2
        rw [heq] at hfree
        exact hfree (hheld (Finset.mem_Ico.2 ⟨by omega, by omega⟩))
      have htail := h.toHolds.tail_iff hn hpre hsuf
      have hsub : insert base s.freed ⊆ s.managed := by
        apply Finset.insert_subset _ h.freed_sub
        exact h.held (hheld (Finset.mem_Ico.2 ⟨by omega, by omega⟩))
      have hF : ∀ a ∈ pre ++ suf,
          a.start ∈ heads pmm (insert base s.freed) → a.start ∈ s.freed := by
        intro a ha hin
        have hor := Finset.mem_insert.1 (Finset.mem_filter.1 hin).1
        exact hor.resolve_left (hbase a ha)
      have hchained := h.chained_iff hn hpre hsuf
      constructor
      · intro hset
        obtain ⟨habove, hsingle⟩ := hset
        have hholds := (hcall (htail.2 habove)).2 fuel pmm hf
        refine ⟨_, ⟨hholds, freed_of_heads hholds.toBlocks hsub, ?_⟩⟩
        apply Apart.coalesce (e := ⟨base, n⟩) h.laid hpre hsuf h.apart hF
        intro q hq r hr heq hqr
        by_contra hno
        apply hsingle
        apply hchained.2
        refine ⟨q, hq, r, hr, heq, hqr, fun p hp hpe => ?_⟩
        by_contra hout
        exact hno ⟨p, hp, hpe, hout⟩
      · intro hset hco
        obtain ⟨l', hl'⟩ := hco
        by_cases habove : (∀ q ∈ s.managed, q ∈ s.allocd)
            ∨ ∃ q ∈ s.managed, base < q ∧ q ∉ s.allocd
        · have hholds := (hcall (htail.2 habove)).2 fuel pmm hf
          rw [hl'.unique hholds.toBlocks] at hl'
          obtain ⟨q, hq, r, hr, heq, hqr, hkeep⟩ :=
            hchained.1 (not_not.1 fun hsingle => hset ⟨habove, hsingle⟩)
          obtain ⟨a, ha, b, hb, hab, hstart⟩ :=
            coalesce_touches (e := ⟨base, n⟩) h.laid hpre hsuf hq hr heq hqr
          apply (hl'.apart a ha b hb hab).1
          apply Finset.mem_filter.2
          refine ⟨?_, (hholds.head _ (hholds.start_mem ha)).2 ⟨a, ha, rfl⟩⟩
          rcases hstart with hstart | ⟨p, hp, hpe, hstart⟩
          · rw [hstart]
            exact Finset.mem_insert_self base s.freed
          · rw [hstart]
            exact Finset.mem_insert_of_mem (hkeep p hp hpe)
        · obtain ⟨hnil, hne⟩ := Classical.not_imp.1 (mt htail.1 habove)
          subst hnil
          have hholds : Holds s.managed s.pmm s.allocd pre := by
            have hholds := h.toHolds
            rwa [List.append_nil] at hholds
          have hstarts : ∀ a ∈ pre, a.start < base := by
            intro a ha
            have hpos := hholds.laid.pos a ha
            have hstop := hpre a ha
            simp only [stop] at hstop
            omega
          exact (hholds.free_tail hn hheld hstarts hne hf).not_ring hl'.ring

end Kept

-- ============================================================== runs

/-- A call keeps the list coalesced exactly when it settles. -/
theorem Kept.step {s s' : Sys} {l : List Extent} {fuel : Nat} {op : Op}
    (h : Kept s l) (hs : s.exec fuel op = some s') :
    (Settles s op → ∃ l', Kept s' l') ∧ (¬ Settles s op → ¬ Coalesced s') := by
  cases op with
  | alloc n => exact ⟨fun _ => h.alloc hs, fun hno => absurd trivial hno⟩
  | free base n => exact h.release hs

/-- Regions that come in below others are put in order. -/
theorem idle_of_regions {pmm : Pmm} {s : Sys}
    (hinit : Relation.ReflTransGen RegionBelow (start pmm) s)
    (hw : s.managed.card < 2 ^ 32) : ∃ l, Idle s l := by
  induction hinit with
  | refl => exact ⟨[], start_idle pmm⟩
  | tail _ hstep ih =>
      obtain ⟨fuel, base, n, hadd, hbelow⟩ := hstep
      have hsub : ∀ {s s' : Sys}, s.addRegion fuel base n = some s' →
          s.managed ⊆ s'.managed := by
        intro s s' h
        unfold Sys.addRegion at h
        split at h
        case isFalse => cases h
        case isTrue =>
          split at h
          case h_1 => cases h
          case h_2 =>
            cases h
            exact Finset.subset_union_left
      obtain ⟨l, h⟩ :=
        ih (Nat.lt_of_le_of_lt (Finset.card_le_card (hsub hadd)) hw)
      exact (h.region hadd hw).1 hbelow

/-- The free list stays ordered and coalesced in every run that puts no
region above all those before it, releases nothing above all that is free,
and nothing before two blocks in a row. The first region and the first call
that do otherwise break it. -/
theorem best_fit_coalesced {pmm : Pmm} {s₁ s : Sys}
    (hinit : Relation.ReflTransGen RegionBelow (start pmm) s₁)
    (hw : s₁.managed.card < 2 ^ 32)
    (hrun : Relation.ReflTransGen StepSettles s₁ s) :
    Coalesced s
      ∧ (∀ fuel base n s', s₁.addRegion fuel base n = some s' →
        s'.managed.card < 2 ^ 32 → (Coalesced s' ↔ Below s₁ base))
      ∧ ∀ fuel op s', s.exec fuel op = some s' →
        (Coalesced s' ↔ Settles s op) := by
  obtain ⟨l₁, hidle⟩ := idle_of_regions hinit hw
  have hkept : ∃ l, Kept s l := by
    induction hrun with
    | refl => exact ⟨l₁, hidle.toKept⟩
    | tail _ hstep ih =>
        obtain ⟨l, h⟩ := ih
        obtain ⟨fuel, op, hexec, hsettles⟩ := hstep
        exact (h.step hexec).1 hsettles
  obtain ⟨l, h⟩ := hkept
  refine ⟨⟨l, h.inOrder⟩, fun fuel base n s' hadd hw' => ?_,
    fun fuel op s' hexec => ?_⟩
  · obtain ⟨hkeep, hbreak⟩ := hidle.region hadd hw'
    constructor
    · intro hco
      by_contra hbelow
      exact hbreak hbelow hco
    · intro hbelow
      obtain ⟨l', h'⟩ := hkeep hbelow
      exact ⟨l', h'.toKept.inOrder⟩
  · obtain ⟨hkeep, hbreak⟩ := h.step hexec
    constructor
    · intro hco
      by_contra hsettles
      exact hbreak hsettles hco
    · intro hsettles
      obtain ⟨l', h'⟩ := hkeep hsettles
      exact ⟨l', h'.inOrder⟩

/-- Four pages from 4 on, then two from 0 on: the smaller block is split, and
its first page comes back. -/
theorem best_fit_coalesced_two : ∃ s₁ s,
    Relation.ReflTransGen RegionBelow (start reservedPages) s₁
      ∧ Relation.ReflTransGen StepSettles s₁ s ∧ Coalesced s := by
  obtain ⟨s₀, hfour⟩ : ∃ s₀, (start reservedPages).addRegion 9 4 4 = some s₀ :=
    ⟨_, rfl⟩
  obtain ⟨s₁, htwo⟩ : ∃ s₁, s₀.addRegion 9 0 2 = some s₁ := by
    cases hfour
    exact ⟨_, rfl⟩
  have hmanaged : 4 ∈ s₀.managed ∧ s₁.managed.card < 2 ^ 32 := by
    cases hfour
    cases htwo
    decide +kernel
  obtain ⟨s₂, halloc⟩ : ∃ s₂, s₁.exec 9 (.alloc 1) = some s₂ := by
    cases hfour
    cases htwo
    exact ⟨_, rfl⟩
  have hstate : (1 ∈ s₂.managed ∧ 1 ∉ s₂.allocd)
      ∧ (s₂.pmm.pages 1).property = 1 ∧ 2 ∉ s₂.managed := by
    cases hfour
    cases htwo
    cases halloc
    decide +kernel
  obtain ⟨s, hfree⟩ : ∃ s, s₂.exec 9 (.free 0 1) = some s := by
    cases hfour
    cases htwo
    cases halloc
    exact ⟨_, rfl⟩
  obtain ⟨⟨hone, hfreed⟩, hsize, hbeyond⟩ := hstate
  have hsettles : Settles s₂ (.free 0 1) := by
    refine ⟨Or.inr ⟨1, hone, Nat.zero_lt_one, hfreed⟩, fun hchained => ?_⟩
    have hhead := hchained.beyond.1
    rw [hsize] at hhead
    exact hbeyond hhead
  have hinit : Relation.ReflTransGen RegionBelow (start reservedPages) s₁ :=
    (Relation.ReflTransGen.single ⟨9, 4, 4, hfour, Or.inl rfl⟩).tail
      ⟨9, 0, 2, htwo, Or.inr ⟨4, hmanaged.1, by decide⟩⟩
  have hrun : Relation.ReflTransGen StepSettles s₁ s :=
    (Relation.ReflTransGen.single ⟨9, .alloc 1, halloc, trivial⟩).tail
      ⟨9, .free 0 1, hfree, hsettles⟩
  exact ⟨s₁, s, hinit, hrun,
    (best_fit_coalesced hinit hmanaged.2 hrun).1⟩

/-- A region above the first one goes to the front of the list. -/
theorem best_fit_unordered :
    ¬ ∀ (pmm : Pmm) (s₁ s : Sys),
      Relation.ReflTransGen
        (fun s s' => ∃ fuel base n, s.addRegion fuel base n = some s')
        (start pmm) s₁ →
      s₁.managed.card < 2 ^ 32 →
      Relation.ReflTransGen
        (fun s s' => ∃ fuel op, s.exec fuel op = some s') s₁ s →
      Coalesced s := by
  intro hall
  obtain ⟨s₀, hfirst⟩ : ∃ s₀, (start reservedPages).addRegion 9 0 1 = some s₀ :=
    ⟨_, rfl⟩
  obtain ⟨s₁, hsecond⟩ : ∃ s₁, s₀.addRegion 9 2 1 = some s₁ := by
    cases hfirst
    exact ⟨_, rfl⟩
  have hmanaged : s₀.managed = {0} ∧ s₀.managed.card < 2 ^ 32
      ∧ s₁.managed.card < 2 ^ 32 := by
    cases hfirst
    cases hsecond
    decide +kernel
  obtain ⟨hzero, hw₀, hw₁⟩ := hmanaged
  obtain ⟨l, hidle⟩ :=
    ((start_idle reservedPages).region hfirst hw₀).1 (Or.inl rfl)
  apply (hidle.region hsecond hw₁).2
  · intro hbelow
    rw [Below, hzero] at hbelow
    rcases hbelow with hempty | ⟨q, hq, hlt⟩
    · exact absurd hempty (Finset.singleton_ne_empty 0)
    · rw [Finset.mem_singleton] at hq
      omega
  · apply hall reservedPages s₁ s₁ _ hw₁ .refl
    exact (Relation.ReflTransGen.single ⟨9, 0, 1, hfirst⟩).tail
      ⟨9, 2, 1, hsecond⟩

end Ucore.BestFitPmm
