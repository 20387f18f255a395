/-
Which block `best_fit_alloc_pages` takes its pages from.

The search loop carries the size of the best block so far and that block.
`Scanned` is its invariant: of the blocks passed, the one carried is the
first of the smallest that are large enough (`Best`), and the bound it
started with counts as a size that no block has. The list is in the order
of the addresses, so the first is the lowest. The rest is what
`takeBlock` does with the block.
-/
import Ucore.Mm.Proofs.BestFitPmm

namespace Ucore.BestFitPmm

open DefaultPmm Ring Extent

-- ======================================================== vocabulary

/-- A well-formed free list in the order of the addresses. `page_init`
hands over far fewer than 2^32 pages, so `nr_free + 1` does not wrap. -/
structure WellFormed (M : Finset Nat) (s : Pmm) (l : List Extent) : Prop
    extends Blocks M s l where
  laid : Laid l
  small : total l + 1 < 2 ^ 32

/-- The lowest of the smallest extents of at least `n` pages. -/
structure Smallest (n : Nat) (l : List Extent) (e : Extent) : Prop where
  mem : e ∈ l
  fits : n ≤ e.len
  least : ∀ a ∈ l, n ≤ a.len →
    e.len < a.len ∨ e.len = a.len ∧ e.start ≤ a.start

/-- What taking `n` pages off a block does to the memory: what is left of
the block is a block in its place, and nothing else changes. -/
structure Takes (M : Finset Nat) (s s' : Pmm) (n : Nat) (pre : List Extent)
    (e : Extent) (suf : List Extent) : Prop where
  list : WellFormed M s' (pre ++ rest e n ++ suf)
  taken : s'.pages e.start = { s.pages e.start with pgProperty := false }
  split : n < e.len → s'.pages (e.start + n)
    = { s.pages (e.start + n) with
        pgProperty := true, property := e.len - n }
  whole : n = e.len → s'.pages (e.start + n) = s.pages (e.start + n)
  other : ∀ q, q ≠ e.start → q ≠ e.start + n → s'.pages q = s.pages q
  nrFree : s'.nrFree + n = s.nrFree

-- ============================================================ search

/-- The first of the smallest extents of at least `n` pages. -/
def Best (n : Nat) (l : List Extent) (e : Extent) : Prop :=
  ∃ pre suf, l = pre ++ e :: suf ∧ n ≤ e.len
    ∧ (∀ a ∈ pre, n ≤ a.len → e.len < a.len)
    ∧ ∀ b ∈ suf, n ≤ b.len → e.len ≤ b.len

/-- What the loop carries once it has passed the extents `vis`. -/
inductive Scanned (n bound : Nat) (vis : List Extent) :
    (minSize : Nat) → Option Extent → Prop where
  | nothing (hnone : ∀ a ∈ vis, a.len < n) : Scanned n bound vis bound none
  | found {e : Extent} (hbest : Best n vis e) :
      Scanned n bound vis e.len (some e)

section Search

variable {n bound minSize : Nat} {vis l : List Extent} {a e : Extent}
  {best : Option Extent}

/-- A block that is too small, or not smaller, is passed over. -/
theorem Best.pass (h : Best n vis e) (ha : ¬ (n ≤ a.len ∧ a.len < e.len)) :
    Best n (vis ++ [a]) e := by
  obtain ⟨pre, suf, rfl, hfits, hpre, hsuf⟩ := h
  refine ⟨pre, suf ++ [a], by simp, hfits, hpre, fun b hb hle => ?_⟩
  rcases List.mem_append.1 hb with hb | hb
  · exact hsuf b hb hle
  · rw [List.mem_singleton.1 hb] at hle ⊢
    omega

/-- A smaller block takes the place of the one carried. -/
theorem Best.improve (h : Best n vis e) (hfits : n ≤ a.len)
    (hlt : a.len < e.len) : Best n (vis ++ [a]) a := by
  obtain ⟨pre, suf, rfl, -, hpre, hsuf⟩ := h
  refine ⟨pre ++ e :: suf, [], rfl, hfits, fun b hb hle => ?_, by simp⟩
  rcases List.mem_append.1 hb with hb | hb
  · exact Nat.lt_trans hlt (hpre b hb hle)
  · rcases List.mem_cons.1 hb with rfl | hb
    · exact hlt
    · exact Nat.lt_of_lt_of_le hlt (hsuf b hb hle)

/-- One round of the loop. -/
theorem Scanned.step (h : Scanned n bound vis minSize best)
    (hbound : a.len < bound) :
    (n ≤ a.len ∧ a.len < minSize →
      Scanned n bound (vis ++ [a]) a.len (some a))
    ∧ (¬ (n ≤ a.len ∧ a.len < minSize) →
      Scanned n bound (vis ++ [a]) minSize best) := by
  cases h with
  | nothing hnone =>
      constructor
      · intro hfits
        apply Scanned.found
        refine ⟨vis, [], rfl, hfits.1, fun b hb hle => ?_, by simp⟩
        have hlt := hnone b hb
        omega
      · intro hno
        apply Scanned.nothing
        intro b hb
        rcases List.mem_append.1 hb with hb | hb
        · exact hnone b hb
        · rw [List.mem_singleton.1 hb]
          omega
  | found hbest =>
      constructor
      · intro hfits
        exact .found (hbest.improve hfits.1 hfits.2)
      · intro hno
        exact .found (hbest.pass hno)

/-- The search loop goes through the extents it has not passed. -/
theorem bestBlock_scanned {M : Finset Nat} {pmm : Pmm} {suf : List Extent}
    (hb : Blocks M pmm (vis ++ suf)) (hbound : ∀ a ∈ suf, a.len < bound)
    (h : Scanned n bound vis minSize best) :
    ∃ best' minSize', Scanned n bound (vis ++ suf) minSize' best'
      ∧ ∀ fuel, suf.length < fuel →
        bestBlock pmm n fuel (before .freeList (cells vis)) minSize
          (best.map Extent.start) = some (best'.map Extent.start) := by
  induction suf generalizing vis minSize best with
  | nil =>
      have hring := hb.ring
      rw [cells_append] at hring
      have hnext : listNext pmm.links (before .freeList (cells vis))
          = .freeList := hring.next_before
      rw [List.append_nil]
      refine ⟨best, minSize, h, fun fuel hfuel => ?_⟩
      obtain ⟨fuel, rfl⟩ := Nat.exists_eq_add_one.2 hfuel
      simp [bestBlock, hnext]
  | cons e suf ih =>
      have hring := hb.ring
      rw [cells_append] at hring
      have hnext : listNext pmm.links (before .freeList (cells vis))
          = .pageLink e.start := hring.next_before
      have hprop := hb.property e (by simp)
      have hstep := h.step (hbound e List.mem_cons_self)
      have hmove : vis ++ e :: suf = (vis ++ [e]) ++ suf := by simp
      have hcell : before .freeList (cells (vis ++ [e]))
          = .pageLink e.start := by
        rw [cells_append, cells_cons, cells_nil, before_concat]
      have hbound' : ∀ a ∈ suf, a.len < bound := fun a ha =>
        hbound a (List.mem_cons_of_mem e ha)
      rw [hmove] at hb ⊢
      by_cases hfit : n ≤ e.len ∧ e.len < minSize
      · obtain ⟨best', minSize', hs, hloop⟩ := ih hb hbound' (hstep.1 hfit)
        rw [hcell] at hloop
        refine ⟨best', minSize', hs, fun fuel hfuel => ?_⟩
        obtain ⟨fuel, rfl⟩ := Nat.exists_eq_add_one.2 (Nat.zero_lt_of_lt hfuel)
        rw [bestBlock]
        simp only [hnext, reduceCtorEq, if_false, le2page, hprop, if_pos hfit]
        exact hloop fuel (Nat.lt_of_succ_lt_succ hfuel)
      · obtain ⟨best', minSize', hs, hloop⟩ := ih hb hbound' (hstep.2 hfit)
        rw [hcell] at hloop
        refine ⟨best', minSize', hs, fun fuel hfuel => ?_⟩
        obtain ⟨fuel, rfl⟩ := Nat.exists_eq_add_one.2 (Nat.zero_lt_of_lt hfuel)
        rw [bestBlock]
        simp only [hnext, reduceCtorEq, if_false, le2page, hprop, if_neg hfit]
        exact hloop fuel (Nat.lt_of_succ_lt_succ hfuel)

/-- By address the first is the lowest. -/
theorem Best.smallest (h : Best n l e) (hl : Laid l) : Smallest n l e := by
  obtain ⟨pre, suf, rfl, hfits, hpre, hsuf⟩ := h
  refine ⟨by simp, hfits, fun a ha hle => ?_⟩
  rcases List.mem_append.1 ha with ha | ha
  · exact Or.inl (hpre a ha hle)
  · rcases List.mem_cons.1 ha with rfl | ha
    · exact Or.inr ⟨rfl, Nat.le_refl _⟩
    · obtain ⟨-, hrow, -⟩ := List.pairwise_append.1 hl.starts
      have hlt := (List.pairwise_cons.1 hrow).1 a ha
      have hlen := hsuf a ha hle
      omega

end Search

-- ============================================================ taking

section Take

variable {M : Finset Nat} {s : Pmm} {n : Nat} {l pre suf : List Extent}
  {e : Extent}

/-- The headers after a block was taken whole. -/
theorem takeBlock_pages_of_not_lt {p : Nat}
    (hle : ¬ n < (s.pages p).property) (q : Nat) :
    (takeBlock s n p).pages q
      = if q = p then { s.pages p with pgProperty := false }
        else s.pages q := by
  simp only [takeBlock, if_neg hle, clearPageProperty, setPage_pages]

/-- `takeBlock` on a block that is large enough. -/
theorem WellFormed.takes (h : WellFormed M s (pre ++ e :: suf)) (hn : 0 < n)
    (hle : n ≤ e.len) : Takes M s (takeBlock s n e.start) n pre e suf := by
  have hsmall := h.small
  have hlen : e.len ≤ total (pre ++ e :: suf) := len_le_total (by simp)
  have hprop : (s.pages e.start).property = e.len :=
    h.property e (by simp)
  have hnr := h.nrFree
  have hblocks := takeBlock_spec h.toBlocks h.laid hn hle (by omega)
  have hleft := rest_total hle
  have hstart : e.start + n ≠ e.start := by omega
  have hcount : (takeBlock s n e.start).nrFree + n = s.nrFree := by
    rw [takeBlock_nrFree]
    omega
  refine ⟨⟨hblocks, carve_spaced h.laid, ?_⟩, ?_, fun hlt => ?_,
    fun hall => ?_, fun q hq hq' => ?_, hcount⟩
  · simp only [total_append, total_cons] at hsmall ⊢
    omega
  · by_cases hlt : n < e.len
    · rw [takeBlock_pages_of_lt hn (hprop ▸ hlt), if_pos rfl]
    · rw [takeBlock_pages_of_not_lt (hprop ▸ hlt), if_pos rfl]
  · rw [takeBlock_pages_of_lt hn (hprop ▸ hlt), if_neg hstart, if_pos rfl,
      hprop, u32_eq (by omega)]
  · have hlt : ¬ n < (s.pages e.start).property := by omega
    rw [takeBlock_pages_of_not_lt hlt, if_neg hstart]
  · by_cases hlt : n < e.len
    · rw [takeBlock_pages_of_lt hn (hprop ▸ hlt), if_neg hq, if_neg hq']
    · rw [takeBlock_pages_of_not_lt (hprop ▸ hlt), if_neg hq]

/-- What a run keeps is a well-formed list. -/
theorem Kept.wellFormed {s : Sys} (h : Kept s l)
    (hw : s.managed.card + 1 < 2 ^ 32) : WellFormed s.managed s.pmm l := by
  have hcount := h.count
  have hnr := h.nrFree
  exact ⟨h.toBlocks, h.laid, by omega⟩

/-- The call returns: it fails and changes nothing when no block is large
enough, and otherwise takes its pages off the lowest of the smallest blocks
that are. -/
theorem best_fit_selects (h : WellFormed M s l) (hn : 0 < n) :
    ∃ r s', (∀ fuel, l.length < fuel →
        bestFitAllocPages fuel n s = some (r, s'))
      ∧ (r = none ↔ ∀ a ∈ l, a.len < n)
      ∧ (r = none → s' = s)
      ∧ ∀ page, r = some page → ∃ pre e suf, l = pre ++ e :: suf
        ∧ e.start = page ∧ Smallest n l e ∧ Takes M s s' n pre e suf := by
  have hsmall := h.small
  have hnr := h.nrFree
  have hne : n ≠ 0 := by omega
  have hlen : ∀ a ∈ l, a.len < s.nrFree + 1 := by
    intro a ha
    have hle := len_le_total ha
    omega
  by_cases hroom : s.nrFree < n
  · refine ⟨none, s, fun fuel _ => ?_, ?_, fun _ => rfl, by simp⟩
    · rw [bestFitAllocPages, if_neg hne, if_pos hroom]
    · simp only [true_iff]
      intro a ha
      have hlt := hlen a ha
      omega
  · have hback : Blocks M s ([] ++ l) := h.toBlocks
    obtain ⟨best, minSize, hscan, hloop⟩ := bestBlock_scanned hback hlen
      (Scanned.nothing (n := n) (by simp))
    have hcall : ∀ fuel, l.length < fuel →
        bestFitAllocPages fuel n s
          = match best with
            | none => some (none, s)
            | some e => some (some e.start, takeBlock s n e.start) := by
      intro fuel hfuel
      have hrun := hloop fuel hfuel
      simp only [cells_nil, before_nil, Option.map_none] at hrun
      have hwrap : u32 (s.nrFree + 1) = s.nrFree + 1 := u32_eq (by omega)
      rw [bestFitAllocPages, if_neg hne, if_neg hroom, hwrap, hrun]
      cases best with
      | none => rfl
      | some e => rfl
    cases hscan with
    | nothing hnone =>
        refine ⟨none, s, hcall, ?_, fun _ => rfl, by simp⟩
        simp only [true_iff]
        exact hnone
    | @found e hbest =>
        obtain ⟨pre, suf, rfl, hfits, -⟩ := id hbest
        refine ⟨some e.start, _, hcall, ?_, by simp, fun page hpage => ?_⟩
        · simp only [reduceCtorEq, false_iff]
          intro hnone
          have hlt := hnone e (by simp)
          omega
        · cases hpage
          exact ⟨pre, e, suf, rfl, rfl, hbest.smallest h.laid,
            h.takes hn hfits⟩

/-- Two regions, the second one below the first: one page is taken off a
block. -/
theorem best_fit_selects_two :
    ∃ (s : Sys) (l : List Extent) (r : Option Nat) (s' : Pmm),
    WellFormed s.managed s.pmm l
      ∧ (∀ fuel, l.length < fuel →
        bestFitAllocPages fuel 1 s.pmm = some (r, s'))
      ∧ r ≠ none := by
  obtain ⟨s₀, hfour⟩ : ∃ s₀, (start reservedPages).addRegion 9 4 4 = some s₀ :=
    ⟨_, rfl⟩
  obtain ⟨s₁, htwo⟩ : ∃ s₁, s₀.addRegion 9 0 2 = some s₁ := by
    cases hfour
    exact ⟨_, rfl⟩
  have hmanaged : 4 ∈ s₀.managed ∧ 0 ∈ s₁.managed
      ∧ s₁.managed.card + 1 < 2 ^ 32 := by
    cases hfour
    cases htwo
    decide +kernel
  obtain ⟨hfirst, hzero, hcard⟩ := hmanaged
  have hinit : Relation.ReflTransGen RegionBelow (start reservedPages) s₁ :=
    (Relation.ReflTransGen.single ⟨9, 4, 4, hfour, Or.inl rfl⟩).tail
      ⟨9, 0, 2, htwo, Or.inr ⟨4, hfirst, by decide⟩⟩
  obtain ⟨l, hidle⟩ := idle_of_regions hinit (Nat.lt_of_succ_lt hcard)
  have hwell := hidle.wellFormed hcard
  obtain ⟨r, s', hcall, hnone, -⟩ := best_fit_selects hwell Nat.one_pos
  refine ⟨s₁, l, r, s', hwell, hcall, fun hr => ?_⟩
  have hfree : 0 ∉ s₁.allocd := by
    rw [hidle.allocd]
    exact Finset.notMem_empty 0
  obtain ⟨e, he, -⟩ := (hidle.free 0).2 ⟨hzero, hfree⟩
  have hpos := hwell.laid.pos e he
  have hlt := hnone.1 hr e he
  omega

end Take

end Ucore.BestFitPmm
