/-
The first-fit allocator keeps its free list an extent list.

`Listed` ties the allocator's memory to a list of extents: the ring
through the page links visits the extents' first pages in order, each of
those headers carries its extent's length, and `PG_property` is set on
those headers and nowhere else in the region. `Repr` adds that the list
is separated and that it covers the pages that are not allocated.

Every function of the allocator is one operation on that list: the search
loop is `List.find?`, taking a block is a carve, giving one back is a
coalesce. The loop that links a block in has one case that is not: at the
tail of a nonempty list it adds the block after itself, and its `prev`
field ends up pointing at itself. `linkBlock_spec` covers the other
cases.
-/
import Mathlib.Logic.Relation
import Mathlib.Order.Interval.Finset.Nat
import Ucore.Lib.Extents
import Ucore.Mm.DefaultPmm

namespace Ucore.DefaultPmm

open Ring Extent

-- ======================================================== invariants

/-- The free-list cells of a list of extents. -/
def cells (l : List Extent) : List Entry :=
  l.map fun e => .pageLink e.start

@[simp] theorem cells_nil : cells [] = [] := rfl

@[simp] theorem cells_cons (e : Extent) (l : List Extent) :
    cells (e :: l) = .pageLink e.start :: cells l := rfl

@[simp] theorem cells_append (l l' : List Extent) :
    cells (l ++ l') = cells l ++ cells l' := by
  simp [cells]

theorem mem_cells {l : List Extent} {p : Nat} :
    .pageLink p ∈ cells l ↔ ∃ e ∈ l, e.start = p := by
  simp [cells]

/-- The memory lists the extents `l` of the region `[lo, hi)`. -/
structure Listed (lo hi : Nat) (s : Pmm) (l : List Extent) : Prop where
  ring : IsRing s.links .freeList (cells l)
  inside : ∀ e ∈ l, lo ≤ e.start ∧ 0 < e.len ∧ e.stop ≤ hi
  property : ∀ e ∈ l, (s.pages e.start).property = e.len
  head : ∀ q, lo ≤ q → q < hi →
    ((s.pages q).pgProperty = true ↔ ∃ e ∈ l, e.start = q)
  reserved : ∀ q, lo ≤ q → q < hi → (s.pages q).pgReserved = false
  nrFree : s.nrFree = total l

/-- The memory lists the extents `l` of the managed pages `M`. -/
structure Blocks (M : Finset Nat) (s : Pmm) (l : List Extent) : Prop where
  ring : IsRing s.links .freeList (cells l)
  inside : ∀ e ∈ l, 0 < e.len ∧ ∀ q, e.Has q → q ∈ M
  property : ∀ e ∈ l, (s.pages e.start).property = e.len
  head : ∀ q ∈ M, ((s.pages q).pgProperty = true ↔ ∃ e ∈ l, e.start = q)
  reserved : ∀ q ∈ M, (s.pages q).pgReserved = false
  nrFree : s.nrFree = total l

/-- The memory represents an allocator of `[lo, hi)` whose allocated
pages are `allocd`. -/
structure Repr (lo hi : Nat) (s : Pmm) (allocd : Finset Nat)
    (l : List Extent) : Prop extends Listed lo hi s l where
  sep : Separated l
  free : ∀ q, Covers l q ↔ lo ≤ q ∧ q < hi ∧ q ∉ allocd
  held : ∀ q ∈ allocd, lo ≤ q ∧ q < hi
  count : s.nrFree + allocd.card = hi - lo
  narrow : hi < lo + 2 ^ 32

/-- A region is a set of managed pages. -/
theorem listed_iff {lo hi : Nat} {s : Pmm} {l : List Extent} :
    Listed lo hi s l ↔ Blocks (Finset.Ico lo hi) s l := by
  have hin : ∀ e : Extent, (lo ≤ e.start ∧ 0 < e.len ∧ e.stop ≤ hi)
      ↔ 0 < e.len ∧ ∀ q, e.Has q → q ∈ Finset.Ico lo hi := by
    intro e
    simp only [Finset.mem_Ico, Has, stop]
    constructor
    · intro h
      exact ⟨h.2.1, fun q hq => ⟨by omega, by omega⟩⟩
    · intro h
      have hfirst := h.2 e.start (by omega)
      have hlast := h.2 (e.start + e.len - 1) (by omega)
      omega
  constructor
  · intro h
    exact ⟨h.ring, fun e he => (hin e).1 (h.inside e he), h.property,
      fun q hq => h.head q (Finset.mem_Ico.1 hq).1 (Finset.mem_Ico.1 hq).2,
      fun q hq => h.reserved q (Finset.mem_Ico.1 hq).1 (Finset.mem_Ico.1 hq).2,
      h.nrFree⟩
  · intro h
    exact ⟨h.ring, fun e he => (hin e).2 (h.inside e he), h.property,
      fun q h1 h2 => h.head q (Finset.mem_Ico.2 ⟨h1, h2⟩),
      fun q h1 h2 => h.reserved q (Finset.mem_Ico.2 ⟨h1, h2⟩), h.nrFree⟩

section Blocks

variable {n : Nat} {M : Finset Nat} {s : Pmm} {l pre suf : List Extent}
  {e : Extent}

/-- The extents of a list begin at different pages. -/
theorem Blocks.start_ne (hs : Blocks M s (pre ++ e :: suf))
    {a : Extent} (ha : a ∈ pre ++ suf) : a.start ≠ e.start := by
  intro heq
  have hnd := (List.nodup_cons.1 hs.ring.nodup).2
  rw [cells_append, cells_cons] at hnd
  have hperm := List.nodup_middle.1 hnd
  refine (List.nodup_cons.1 hperm).1 ?_
  rw [← cells_append, mem_cells]
  exact ⟨a, ha, heq⟩

/-- The first page of a member is managed. -/
theorem Blocks.start_mem (hs : Blocks M s l) (he : e ∈ l) : e.start ∈ M := by
  obtain ⟨hpos, hin⟩ := hs.inside e he
  exact hin _ ⟨Nat.le_refl _, Nat.lt_add_of_pos_right hpos⟩

-- ============================================================ search

/-- The search loop is a search of the extents it has not passed. -/
theorem findBlock_spec (hs : Blocks M s (pre ++ suf)) {fuel : Nat}
    (hfuel : suf.length < fuel) :
    findBlock s n fuel (before .freeList (cells pre))
      = some ((suf.find? fun e => decide (n ≤ e.len)).map start) := by
  induction suf generalizing pre fuel with
  | nil =>
      obtain ⟨fuel, rfl⟩ := Nat.exists_eq_add_one.2 hfuel
      have hring := hs.ring
      rw [cells_append] at hring
      simp [findBlock, listNext, hring.next_before]
  | cons e suf ih =>
      obtain ⟨fuel, rfl⟩ :=
        Nat.exists_eq_add_one.2 (Nat.zero_lt_of_lt hfuel)
      have hring := hs.ring
      rw [cells_append] at hring
      have hnext : listNext s.links (before .freeList (cells pre))
          = .pageLink e.start := hring.next_before
      have hprop : (s.pages e.start).property = e.len :=
        hs.property e (by simp)
      rw [findBlock]
      simp only [hnext, reduceCtorEq, if_false, le2page, hprop]
      by_cases hfit : n ≤ e.len
      · simp [hfit]
      · have hs' : Blocks M s ((pre ++ [e]) ++ suf) := by
          rw [List.append_assoc]
          exact hs
        have hrec := ih hs' (Nat.lt_of_succ_lt_succ hfuel)
        rw [cells_append, cells_cons, cells_nil, before_concat] at hrec
        simp [hfit, hrec]

-- ====================================================== taking pages

/-- Which managed pages carry the flag, one extent singled out. -/
theorem Blocks.head_split (hs : Blocks M s (pre ++ e :: suf)) {q : Nat}
    (hq : q ∈ M) : (s.pages q).pgProperty = true
      ↔ q = e.start ∨ ∃ a ∈ pre ++ suf, a.start = q := by
  rw [hs.head q hq]
  constructor
  · rintro ⟨a, ha, rfl⟩
    rcases List.mem_append.1 ha with ha | ha
    · exact Or.inr ⟨a, by simp [ha], rfl⟩
    · rcases List.mem_cons.1 ha with rfl | ha
      · exact Or.inl rfl
      · exact Or.inr ⟨a, by simp [ha], rfl⟩
  · rintro (rfl | ⟨a, ha, rfl⟩)
    · exact ⟨e, by simp, rfl⟩
    · refine ⟨a, ?_, rfl⟩
      rcases List.mem_append.1 ha with ha | ha <;> simp [ha]

theorem takeBlock_nrFree (p : Nat) :
    (takeBlock s n p).nrFree = s.nrFree - n := by
  by_cases hlt : n < (s.pages p).property
  · simp [takeBlock, hlt, clearPageProperty, setPageProperty, setProperty]
  · simp [takeBlock, hlt, clearPageProperty]

/-- The headers after a block that is too large was taken: the rest of
it is a block of its own. -/
theorem takeBlock_pages_of_lt {p : Nat} (hn : 0 < n)
    (hlt : n < (s.pages p).property) (q : Nat) :
    (takeBlock s n p).pages q
      = if q = p then { s.pages p with pgProperty := false }
        else if q = p + n then
          { s.pages q with
            pgProperty := true
            property := u32 ((s.pages p).property - n) }
        else s.pages q := by
  have hn0 : n ≠ 0 := by omega
  simp only [takeBlock, if_pos hlt, clearPageProperty, setPageProperty,
    setProperty, setPage_pages]
  by_cases hq : q = p
  · subst hq
    simp [hn0]
  · by_cases hq' : q = p + n
    · subst hq'
      simp [hn0]
    · simp [hq, hq']

/-- Taking the first `n` pages of a block carves its extent. -/
theorem takeBlock_spec (hs : Blocks M s (pre ++ e :: suf))
    (hlaid : Laid (pre ++ e :: suf)) (hn : 0 < n) (hle : n ≤ e.len)
    (hw : e.len < 2 ^ 32) :
    Blocks M (takeBlock s n e.start) (pre ++ rest e n ++ suf) := by
  have hprop : (s.pages e.start).property = e.len :=
    hs.property e (by simp)
  have hring := hs.ring
  rw [cells_append, cells_cons] at hring
  have hprev : listPrev s.links (.pageLink e.start)
      = before .freeList (cells pre) := hring.prev_after
  have hdel := listDel_ring hring
  obtain ⟨hepos, hein⟩ := hs.inside e (by simp)
  have hother : ∀ a ∈ pre ++ suf, a ∈ pre ++ e :: suf := by
    intro a ha
    rcases List.mem_append.1 ha with ha | ha <;> simp [ha]
  by_cases hlt : n < e.len
  · -- the block is split: the rest of it takes its place on the list
    have hrest : rest e n = [⟨e.start + n, e.len - n⟩] := by
      simp [rest, hlt]
    have hpages := takeBlock_pages_of_lt (s := s) hn (hprop ▸ hlt)
    have hfresh : ∀ a ∈ pre ++ suf, a.start ≠ e.start + n := by
      intro a ha heq
      have hae : a = e := by
        refine hlaid.has_unique (hother a ha) (by simp) (q := e.start + n) ?_ ?_
        · have := hlaid.pos a (hother a ha)
          simp only [Has, stop]
          omega
        · simp only [Has, stop]
          omega
      exact hs.start_ne ha (by rw [hae])
    have hlinks : (takeBlock s n e.start).links
        = listAdd (listDel s.links (.pageLink e.start))
            (before .freeList (cells pre)) (.pageLink (e.start + n)) := by
      simp only [takeBlock, hprop, if_pos hlt]
      rw [← hprev]
      rfl
    rw [hrest, List.append_assoc, List.singleton_append]
    refine ⟨?_, fun a ha => ?_, fun a ha => ?_, fun q hq => ?_,
      fun q hq => ?_, ?_⟩
    · rw [hlinks, cells_append, cells_cons]
      refine listAdd_ring hdel ?_
      rw [← cells_append]
      intro hmem
      rcases List.mem_cons.1 hmem with heq | hmem
      · cases heq
      · obtain ⟨a, ha, heq⟩ := mem_cells.1 hmem
        exact hfresh a ha heq
    · rcases List.mem_append.1 ha with ha | ha
      · exact hs.inside a (by simp [ha])
      · rcases List.mem_cons.1 ha with rfl | ha
        · refine ⟨Nat.sub_pos_of_lt hlt, fun q hq => hein q ?_⟩
          simp only [Has, stop] at hq ⊢
          omega
        · exact hs.inside a (by simp [ha])
    · by_cases hae : a = ⟨e.start + n, e.len - n⟩
      · subst hae
        have hne : e.start + n ≠ e.start := by omega
        rw [hpages]
        simp only [hne, if_false, if_true, hprop]
        exact u32_eq (by omega)
      · have ha' : a ∈ pre ++ suf := by
          rcases List.mem_append.1 ha with ha | ha
          · simp [ha]
          · simp [(List.mem_cons.1 ha).resolve_left hae]
        rw [hpages]
        simp only [hs.start_ne ha', hfresh a ha', if_false]
        exact hs.property a (hother a ha')
    · rw [hpages]
      by_cases hqe : q = e.start
      · subst hqe
        simp only [if_true, Bool.false_eq_true, false_iff]
        rintro ⟨a, ha, heq⟩
        rcases List.mem_append.1 ha with ha | ha
        · exact hs.start_ne (by simp [ha]) heq
        · rcases List.mem_cons.1 ha with rfl | ha
          · simp only at heq
            omega
          · exact hs.start_ne (by simp [ha]) heq
      · by_cases hq' : q = e.start + n
        · subst hq'
          simp only [hqe, if_false, if_true, true_iff]
          exact ⟨⟨e.start + n, e.len - n⟩, by simp, rfl⟩
        · simp only [hqe, hq', if_false]
          rw [hs.head_split hq]
          simp only [hqe, false_or, List.mem_append, List.mem_cons]
          constructor
          · rintro ⟨a, ha, rfl⟩
            exact ⟨a, by tauto, rfl⟩
          · rintro ⟨a, ha | rfl | ha, rfl⟩
            · exact ⟨a, Or.inl ha, rfl⟩
            · exact absurd rfl hq'
            · exact ⟨a, Or.inr ha, rfl⟩
    · rw [hpages]
      split
      · next heq => exact heq ▸ hs.reserved q hq
      · split
        · exact hs.reserved q hq
        · exact hs.reserved q hq
    · rw [takeBlock_nrFree, hs.nrFree]
      simp only [total_append, total_cons]
      omega
  · -- the block is used up
    have hrest : rest e n = [] := by simp [rest, hlt]
    have hpages : ∀ q, (takeBlock s n e.start).pages q
        = if q = e.start then { s.pages e.start with pgProperty := false }
          else s.pages q := by
      intro q
      simp [takeBlock, hprop, hlt, clearPageProperty]
    have hlinks : (takeBlock s n e.start).links
        = listDel s.links (.pageLink e.start) := by
      simp [takeBlock, hprop, hlt, clearPageProperty]
    rw [hrest, List.append_nil]
    refine ⟨?_, fun a ha => hs.inside a (hother a ha), fun a ha => ?_,
      fun q hq => ?_, fun q hq => ?_, ?_⟩
    · rw [hlinks, cells_append]
      exact hdel
    · rw [hpages, if_neg (hs.start_ne ha)]
      exact hs.property a (hother a ha)
    · rw [hpages]
      by_cases hqe : q = e.start
      · subst hqe
        simp only [if_true, Bool.false_eq_true, false_iff]
        rintro ⟨a, ha, heq⟩
        exact hs.start_ne ha heq
      · rw [if_neg hqe, hs.head_split hq]
        simp [hqe]
    · rw [hpages]
      split
      · next heq => exact heq ▸ hs.reserved q hq
      · exact hs.reserved q hq
    · rw [takeBlock_nrFree, hs.nrFree]
      simp only [total_append, total_cons]
      omega

-- ==================================================== linking blocks

/-- The insertion loop stops at the first block above `base` and adds
`base` before it. -/
theorem linkBlockLoop_spec {m : Links Entry} {base fuel : Nat}
    {vis mid : List Extent}
    (hr : IsRing m .freeList (cells (vis ++ mid ++ e :: suf)))
    (hmid : ∀ a ∈ mid, ¬ base < a.start) (he : base < e.start)
    (hfuel : mid.length < fuel) :
    linkBlockLoop base fuel m (before .freeList (cells vis))
      = some (listAddBefore m (.pageLink e.start) (.pageLink base)) := by
  induction mid generalizing vis fuel with
  | nil =>
      obtain ⟨fuel, rfl⟩ := Nat.exists_eq_add_one.2 hfuel
      rw [List.append_nil, cells_append, cells_cons] at hr
      have hnext : listNext m (before .freeList (cells vis))
          = .pageLink e.start := hr.next_before
      rw [linkBlockLoop]
      simp [hnext, le2page, he]
  | cons a mid ih =>
      obtain ⟨fuel, rfl⟩ :=
        Nat.exists_eq_add_one.2 (Nat.zero_lt_of_lt hfuel)
      have hr' : IsRing m .freeList (cells ((vis ++ [a]) ++ mid ++ e :: suf)) := by
        simpa using hr
      have hnext : listNext m (before .freeList (cells vis))
          = .pageLink a.start := by
        rw [List.append_assoc, List.cons_append, cells_append, cells_cons] at hr
        exact hr.next_before
      have hmore : listNext m (.pageLink a.start) ≠ .freeList := by
        rw [List.append_assoc, cells_append] at hr'
        have hnext' := hr'.next_before
        rw [cells_append, cells_cons, cells_nil, before_concat] at hnext'
        rw [listNext, hnext']
        cases mid <;> simp
      have ha : ¬ base < a.start := hmid a (by simp)
      have hrec := ih hr' (fun b hb => hmid b (by simp [hb]))
        (Nat.lt_of_succ_lt_succ hfuel)
      rw [cells_append, cells_cons, cells_nil, before_concat] at hrec
      rw [linkBlockLoop]
      simp [hnext, le2page, ha, hmore, hrec]

/-- A block is linked in at its place whenever the list is empty or holds
a block above it. -/
theorem linkBlock_spec {m : Links Entry} {base fuel : Nat} (len : Nat)
    (hr : IsRing m .freeList (cells (pre ++ suf)))
    (hpre : ∀ a ∈ pre, a.start < base) (hsuf : ∀ b ∈ suf, base < b.start)
    (htail : suf = [] → pre = []) (hfuel : pre.length < fuel) :
    ∃ m', linkBlock fuel m base = some m'
      ∧ IsRing m' .freeList (cells (pre ++ ⟨base, len⟩ :: suf)) := by
  have hfresh : Entry.pageLink base ∉ .freeList :: cells (pre ++ suf) := by
    intro hmem
    rcases List.mem_cons.1 hmem with heq | hmem
    · cases heq
    · obtain ⟨a, ha, heq⟩ := mem_cells.1 hmem
      rcases List.mem_append.1 ha with ha | ha
      · exact absurd heq (Nat.ne_of_lt (hpre a ha))
      · exact absurd heq (Nat.ne_of_gt (hsuf a ha))
  rw [cells_append] at hr hfresh
  cases suf with
  | nil =>
      have hpre0 := htail rfl
      subst hpre0
      have hempty : listEmpty m .freeList = true := (listEmpty_ring hr).2 rfl
      refine ⟨listAdd m .freeList (.pageLink base), by simp [linkBlock, hempty],
        ?_⟩
      exact listAdd_ring_head hr hfresh
  | cons b suf =>
      have hnonempty : listEmpty m .freeList = false := by
        rw [Bool.eq_false_iff]
        intro hempty
        have hnil := (listEmpty_ring hr).1 hempty
        simp at hnil
      have hloop : linkBlockLoop base fuel m .freeList
          = some (listAddBefore m (.pageLink b.start) (.pageLink base)) := by
        have hr' : IsRing m .freeList (cells ([] ++ pre ++ b :: suf)) := by
          rw [List.nil_append, cells_append]
          exact hr
        exact linkBlockLoop_spec hr'
          (fun a ha => Nat.not_lt.2 (Nat.le_of_lt (hpre a ha)))
          (hsuf b (by simp)) hfuel
      refine ⟨listAddBefore m (.pageLink b.start) (.pageLink base), ?_, ?_⟩
      · simp [linkBlock, hnonempty, hloop]
      · rw [cells_append, cells_cons]
        exact listAddBefore_ring hr hfresh

-- ======================================================= giving back

/-- The page loop of `default_free_pages` clears the flags it has checked
to be clear, and the reference counts. -/
theorem freePages_spec {p k : Nat} {pages : Nat → Page}
    (hclear : ∀ q, p ≤ q → q < p + k →
      (pages q).pgReserved = false ∧ (pages q).pgProperty = false) :
    ∃ pages', freePages p k pages = some pages'
      ∧ ∀ q, pages' q = if p ≤ q ∧ q < p + k then
          { pages q with ref := 0 } else pages q := by
  induction k with
  | zero =>
      refine ⟨pages, rfl, fun q => ?_⟩
      rw [if_neg (by omega)]
  | succ k ih =>
      obtain ⟨pages', hfree, hpages⟩ :=
        ih fun q h1 h2 => hclear q h1 (by omega)
      have hlast : pages' (p + k) = pages (p + k) := by
        rw [hpages, if_neg (by omega)]
      obtain ⟨hres, hprop⟩ := hclear (p + k) (by omega) (by omega)
      refine ⟨Function.update pages' (p + k)
        { pages (p + k) with ref := 0 }, ?_, fun q => ?_⟩
      · rw [freePages, hfree]
        simp only [hlast, hres, hprop]
        rfl
      · rw [Function.update_apply, hpages]
        by_cases hq : q = p + k
        · subst hq
          rw [if_pos rfl, if_pos (by omega)]
        · rw [if_neg hq]
          by_cases hin : p ≤ q ∧ q < p + k
          · rw [if_pos hin, if_pos (by omega)]
          · rw [if_neg hin, if_neg (by omega)]

/-- One extent stands for two that touch: the shared part of the two
merges. `keep` is the page of the merged block's header, `gone` the page
that loses its flag. -/
theorem blocks_of_merge {s' : Pmm} {a b : Extent}
    (hs : Blocks M s (pre ++ a :: b :: suf)) (htouch : a.stop = b.start)
    (hw : total (pre ++ a :: b :: suf) < 2 ^ 32)
    (hpages : ∀ q, s'.pages q
      = if q = b.start then { s.pages q with pgProperty := false }
        else if q = a.start then
          { s.pages q with property := u32 (a.len + b.len) }
        else s.pages q)
    (hlinks : s'.links = listDel s.links (.pageLink b.start))
    (hnr : s'.nrFree = s.nrFree) :
    Blocks M s' (pre ++ ⟨a.start, a.len + b.len⟩ :: suf) := by
  have hs' : Blocks M s ((pre ++ [a]) ++ b :: suf) := by simpa using hs
  have hab : a.start ≠ b.start := hs'.start_ne (by simp)
  obtain ⟨hapos, hain⟩ := hs.inside a (by simp)
  obtain ⟨hbpos, hbin⟩ := hs.inside b (by simp)
  refine ⟨?_, fun c hc => ?_, fun c hc => ?_, fun q hq => ?_,
    fun q hq => ?_, ?_⟩
  · have hring := hs'.ring
    rw [cells_append, cells_cons] at hring
    have hdel := listDel_ring hring
    rw [hlinks]
    simpa using hdel
  · rcases List.mem_append.1 hc with hc | hc
    · exact hs.inside c (by simp [hc])
    · rcases List.mem_cons.1 hc with rfl | hc
      · refine ⟨Nat.add_pos_left hapos _, fun q hq => ?_⟩
        simp only [Has, stop] at htouch hain hbin hq
        by_cases hqb : q < b.start
        · exact hain q (by omega)
        · exact hbin q (by omega)
      · exact hs.inside c (by simp [hc])
  · rcases List.mem_append.1 hc with hc | hc
    · have hca := hs.start_ne (a := c) (by simp [hc])
      have hcb := hs'.start_ne (a := c) (by simp [hc])
      rw [hpages, if_neg hcb, if_neg hca]
      exact hs.property c (by simp [hc])
    · rcases List.mem_cons.1 hc with rfl | hc
      · rw [hpages]
        simp only [hab, if_false, if_true]
        refine u32_eq ?_
        simp only [total_append, total_cons] at hw
        omega
      · have hca := hs.start_ne (a := c) (by simp [hc])
        have hcb := hs'.start_ne (a := c) (by simp [hc])
        rw [hpages, if_neg hcb, if_neg hca]
        exact hs.property c (by simp [hc])
  · rw [hpages]
    by_cases hqb : q = b.start
    · subst hqb
      simp only [if_true, Bool.false_eq_true, false_iff]
      rintro ⟨c, hc, heq⟩
      rcases List.mem_append.1 hc with hc | hc
      · exact hs'.start_ne (by simp [hc]) heq
      · rcases List.mem_cons.1 hc with rfl | hc
        · exact hab heq
        · exact hs'.start_ne (by simp [hc]) heq
    · have hflag : (if q = b.start then { s.pages q with pgProperty := false }
          else if q = a.start then
            { s.pages q with property := u32 (a.len + b.len) }
          else s.pages q).pgProperty = (s.pages q).pgProperty := by
        rw [if_neg hqb]
        split <;> rfl
      rw [hflag, hs'.head_split hq]
      simp only [hqb, false_or, List.mem_append, List.mem_cons,
        List.not_mem_nil, or_false]
      constructor
      · rintro ⟨c, (hc | rfl) | hc, rfl⟩
        · exact ⟨c, Or.inl hc, rfl⟩
        · exact ⟨⟨c.start, c.len + b.len⟩, Or.inr (Or.inl rfl), rfl⟩
        · exact ⟨c, Or.inr (Or.inr hc), rfl⟩
      · rintro ⟨c, hc | rfl | hc, rfl⟩
        · exact ⟨c, Or.inl (Or.inl hc), rfl⟩
        · exact ⟨a, Or.inl (Or.inr rfl), rfl⟩
        · exact ⟨c, Or.inr hc, rfl⟩
  · rw [hpages]
    split
    · exact hs.reserved q hq
    · split
      · exact hs.reserved q hq
      · exact hs.reserved q hq
  · rw [hnr, hs.nrFree]
    simp only [total_append, total_cons]
    omega

/-- `mergePrev` is the left merge of the extents. -/
theorem mergePrev_spec (hs : Blocks M s (pre ++ e :: suf))
    (hw : total (pre ++ e :: suf) < 2 ^ 32) :
    Blocks M (mergePrev s e.start).1
        ((mergeLeft pre e).1 ++ (mergeLeft pre e).2 :: suf)
      ∧ (mergePrev s e.start).2 = (mergeLeft pre e).2.start := by
  have hring := hs.ring
  rw [cells_append, cells_cons] at hring
  have hprev : listPrev s.links (.pageLink e.start)
      = before .freeList (cells pre) := hring.prev_after
  rcases List.eq_nil_or_concat pre with rfl | ⟨pre, p, rfl⟩
  · have hmerge : mergePrev s e.start = (s, e.start) := by
      simp [mergePrev, hprev]
    rw [hmerge]
    exact ⟨hs, rfl⟩
  · rw [List.concat_eq_append] at *
    rw [cells_append, cells_cons, cells_nil, before_concat] at hprev
    have hpp : (s.pages p.start).property = p.len := hs.property p (by simp)
    have hpe : (s.pages e.start).property = e.len := hs.property e (by simp)
    have hne : p.start ≠ e.start := hs.start_ne (by simp)
    by_cases htouch : p.start + p.len = e.start
    · have hml : mergeLeft (pre ++ [p]) e
          = (pre, ⟨p.start, p.len + e.len⟩) := by
        simp [mergeLeft, stop, htouch]
      have hs' : Blocks M s (pre ++ p :: e :: suf) := by simpa using hs
      have hw' : total (pre ++ p :: e :: suf) < 2 ^ 32 := by simpa using hw
      have hmerge : mergePrev s e.start
          = ({ clearPageProperty (setProperty s p.start (p.len + e.len)) e.start
                with links := listDel s.links (.pageLink e.start) },
              p.start) := by
        simp [mergePrev, hprev, le2page, hpp, hpe, htouch, setProperty,
          clearPageProperty]
      rw [hmerge, hml]
      refine ⟨blocks_of_merge hs' htouch hw' (fun q => ?_) rfl rfl, rfl⟩
      simp only [clearPageProperty, setProperty, setPage_pages]
      by_cases hq : q = e.start
      · subst hq
        simp [hne.symm]
      · by_cases hq' : q = p.start
        · subst hq'
          simp [hq]
        · simp [hq, hq']
    · have hml : mergeLeft (pre ++ [p]) e = (pre ++ [p], e) := by
        simp [mergeLeft, stop, htouch]
      have hmerge : mergePrev s e.start = (s, e.start) := by
        simp [mergePrev, hprev, le2page, hpp, htouch]
      rw [hmerge, hml]
      exact ⟨hs, rfl⟩

/-- `mergeNext` is the right merge of the extents. -/
theorem mergeNext_spec (hs : Blocks M s (pre ++ e :: suf))
    (hw : total (pre ++ e :: suf) < 2 ^ 32) :
    Blocks M (mergeNext s e.start)
      (pre ++ (mergeRight e suf).1 :: (mergeRight e suf).2) := by
  have hring : IsRing s.links .freeList (cells (pre ++ [e]) ++ cells suf) := by
    rw [← cells_append, List.append_assoc]
    exact hs.ring
  have hnext : listNext s.links (.pageLink e.start)
      = after .freeList (cells suf) := by
    have hcut := hring.next_before
    rwa [cells_append, cells_cons, cells_nil, before_concat] at hcut
  cases suf with
  | nil =>
      have hmerge : mergeNext s e.start = s := by simp [mergeNext, hnext]
      rw [hmerge]
      exact hs
  | cons p suf =>
      have hpp : (s.pages p.start).property = p.len := hs.property p (by simp)
      have hpe : (s.pages e.start).property = e.len := hs.property e (by simp)
      have hne : p.start ≠ e.start := hs.start_ne (by simp)
      rw [cells_cons, after_cons] at hnext
      by_cases htouch : e.start + e.len = p.start
      · have hmr : mergeRight e (p :: suf)
            = (⟨e.start, e.len + p.len⟩, suf) := by
          simp [mergeRight, stop, htouch]
        have hmerge : mergeNext s e.start
            = { clearPageProperty (setProperty s e.start (e.len + p.len))
                  p.start
                with links := listDel s.links (.pageLink p.start) } := by
          simp [mergeNext, hnext, le2page, hpp, hpe, htouch, setProperty,
            clearPageProperty]
        rw [hmerge, hmr]
        refine blocks_of_merge hs htouch hw (fun q => ?_) rfl rfl
        simp only [clearPageProperty, setProperty, setPage_pages]
        by_cases hq : q = p.start
        · subst hq
          simp [hne]
        · by_cases hq' : q = e.start
          · subst hq'
            simp [hq]
          · simp [hq, hq']
      · have hmr : mergeRight e (p :: suf) = (e, p :: suf) := by
          simp [mergeRight, stop, htouch]
        have hmerge : mergeNext s e.start = s := by
          simp [mergeNext, hnext, le2page, hpe, htouch]
        rw [hmerge, hmr]
        exact hs

end Blocks

end Ucore.DefaultPmm
