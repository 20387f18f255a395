/-
Free blocks and held pages.

`Holds` is what an allocator with one free list keeps between calls: the
list's blocks are laid out by address, and together they are the managed
pages that nobody holds. Which block a call takes its pages from is the
allocator's own affair; taking them (`Holds.take`), linking a block in
(`Blocks.linkedIn`) and giving pages back (`Holds.free_pages`) are the same
for all of them.

A block that goes to the tail of a nonempty list is the case that breaks
this. The insertion loop adds it there and goes round once more, from the
block it has just added: the block is the last of the list again, and is now
added after itself (`TailLinked`). Its `next` field is right, its `prev`
field points at itself, so that nobody who walks backwards gets past it
(`TailLinked.not_ring`).
-/
import Mathlib.Data.Finset.Card
import Ucore.Mm.Proofs.DefaultPmm

namespace Ucore.DefaultPmm

open Ring Extent

/-- The memory lists the blocks of the managed pages `M` that are not in
`A`. -/
structure Holds (M : Finset Nat) (s : Pmm) (A : Finset Nat)
    (l : List Extent) : Prop extends Blocks M s l where
  laid : Laid l
  free : ∀ q, Covers l q ↔ q ∈ M ∧ q ∉ A
  held : A ⊆ M
  count : s.nrFree + A.card = M.card
  narrow : M.card < 2 ^ 32

-- ============================================================== fuel

/-- More fuel does not change where a block is linked in. -/
theorem linkBlockLoop_mono {base fuel k : Nat} {m m' : Links Entry}
    {le : Entry} (h : linkBlockLoop base fuel m le = some m') :
    linkBlockLoop base (fuel + k) m le = some m' := by
  induction fuel generalizing m le with
  | zero => cases h
  | succ fuel ih =>
      rw [Nat.add_right_comm, linkBlockLoop]
      rw [linkBlockLoop] at h
      dsimp only at h ⊢
      split at h
      case isTrue hend =>
        rw [if_pos hend]
        exact h
      case isFalse hend =>
        rw [if_neg hend]
        split at h
        case isTrue hlt =>
          rw [if_pos hlt]
          exact h
        case isFalse hlt =>
          rw [if_neg hlt]
          split at h
          case isTrue htail =>
            rw [if_pos htail]
            exact ih h
          case isFalse htail =>
            rw [if_neg htail]
            exact ih h

theorem linkBlock_mono {base fuel k : Nat} {m m' : Links Entry}
    (h : linkBlock fuel m base = some m') :
    linkBlock (fuel + k) m base = some m' := by
  unfold linkBlock at h ⊢
  split at h
  case isTrue hempty =>
    rw [if_pos hempty]
    exact h
  case isFalse hempty =>
    rw [if_neg hempty]
    exact linkBlockLoop_mono h

section Holds

variable {n base fuel : Nat} {M A : Finset Nat} {s : Pmm}
  {l pre suf : List Extent} {e : Extent}

theorem Holds.total_lt (hs : Holds M s A l) : total l < 2 ^ 32 := by
  have hcount := hs.count
  have hnarrow := hs.narrow
  rw [hs.nrFree] at hcount
  omega

theorem Holds.covers_start (hs : Holds M s A l) (he : e ∈ l) :
    Covers l e.start :=
  Extent.covers_start he (hs.laid.pos e he)

-- ====================================================== taking pages

/-- The pages taken off a block were free, and are held from then on. -/
theorem Holds.take (hs : Holds M s A (pre ++ e :: suf)) (hn : 0 < n)
    (hle : n ≤ e.len) :
    (∀ q, e.start ≤ q → q < e.start + n → q ∈ M ∧ q ∉ A)
      ∧ Holds M (takeBlock s n e.start)
        (A ∪ Finset.Ico e.start (e.start + n)) (pre ++ rest e n ++ suf) := by
  have hlen : e.len < 2 ^ 32 :=
    Nat.lt_of_le_of_lt (len_le_total (by simp)) hs.total_lt
  have hin : ∀ q, e.start ≤ q → q < e.start + n → q ∈ M ∧ q ∉ A := by
    intro q h1 h2
    apply (hs.free q).1
    refine ⟨e, by simp, h1, ?_⟩
    simp only [stop]
    omega
  have hdisj : Disjoint A (Finset.Ico e.start (e.start + n)) := by
    rw [Finset.disjoint_right]
    intro q hq
    rw [Finset.mem_Ico] at hq
    exact (hin q hq.1 hq.2).2
  have hblocks := takeBlock_spec hs.toBlocks hs.laid hn hle hlen
  refine ⟨hin, { hblocks with
    laid := carve_spaced hs.laid
    free := fun q => ?_
    held := fun q hq => ?_
    count := ?_
    narrow := hs.narrow }⟩
  · rw [carve_covers hs.laid hle, hs.free, Finset.mem_union, Finset.mem_Ico]
    tauto
  · rcases Finset.mem_union.1 hq with hq | hq
    · exact hs.held hq
    · rw [Finset.mem_Ico] at hq
      exact (hin q hq.1 hq.2).1
  · have hcount := hs.count
    have hge : n ≤ s.nrFree := by
      rw [hs.nrFree]
      exact Nat.le_trans hle (len_le_total (by simp))
    rw [Finset.card_union_of_disjoint hdisj, Nat.card_Ico, takeBlock_nrFree]
    omega

-- ==================================================== linking blocks

/-- The page loop of `default_init_memmap` clears the headers it
visits. -/
theorem initPages_spec {p k : Nat} {pages pages' : Nat → Page}
    (h : initPages p k pages = some pages') {q : Nat} (h1 : p ≤ q)
    (h2 : q < p + k) : pages' q = ⟨0, false, false, 0⟩ := by
  induction k generalizing pages' with
  | zero => omega
  | succ k ih =>
      rw [initPages] at h
      cases hk : initPages p k pages with
      | none => rw [hk] at h; cases h
      | some pages'' =>
          rw [hk] at h
          simp only at h
          split at h
          case isFalse => cases h
          case isTrue =>
            rw [Option.some.injEq] at h
            subst h
            rw [Function.update_apply]
            split
            case isTrue => rfl
            case isFalse hq => exact ih hk (by omega)

/-- The other headers it leaves alone. -/
theorem initPages_frame {p k : Nat} {pages pages' : Nat → Page}
    (h : initPages p k pages = some pages') {q : Nat}
    (hq : ¬ (p ≤ q ∧ q < p + k)) : pages' q = pages q := by
  induction k generalizing pages' with
  | zero =>
      rw [initPages, Option.some.injEq] at h
      rw [h]
  | succ k ih =>
      rw [initPages] at h
      cases hk : initPages p k pages with
      | none => rw [hk] at h; cases h
      | some pages'' =>
          rw [hk] at h
          simp only at h
          split at h
          case isFalse => cases h
          case isTrue =>
            rw [Option.some.injEq] at h
            subst h
            rw [Function.update_apply, if_neg (by omega)]
            exact ih hk (by omega)

/-- The memory once a block is linked in and before it is merged. -/
def linkedIn (s : Pmm) (pages : Nat → Page) (links : Links Entry)
    (base n : Nat) : Pmm :=
  { setPageProperty (setProperty { s with pages := pages } base n) base
    with nrFree := u32 (s.nrFree + n), links := links }

/-- Linked in, a block of clear pages is one more extent of the list. -/
theorem Blocks.linkedIn {pages' : Nat → Page} {links' : Links Entry}
    (hs : Blocks M s (pre ++ suf)) (hn : 0 < n)
    (hout : ∀ a ∈ pre ++ suf, ¬ (base ≤ a.start ∧ a.start < base + n))
    (hw : total (pre ++ suf) + n < 2 ^ 32)
    (hclear : ∀ q, base ≤ q → q < base + n →
      (pages' q).pgReserved = false ∧ (pages' q).pgProperty = false)
    (hframe : ∀ q, ¬ (base ≤ q ∧ q < base + n) →
      (pages' q).property = (s.pages q).property
        ∧ (pages' q).pgReserved = (s.pages q).pgReserved
        ∧ (pages' q).pgProperty = (s.pages q).pgProperty)
    (hring : IsRing links' .freeList (cells (pre ++ ⟨base, n⟩ :: suf))) :
    Blocks (M ∪ Finset.Ico base (base + n))
      (DefaultPmm.linkedIn s pages' links' base n)
      (pre ++ ⟨base, n⟩ :: suf) := by
  have hpt : ∀ q, (DefaultPmm.linkedIn s pages' links' base n).pages q
      = if q = base then { pages' base with pgProperty := true, property := n }
        else pages' q := by
    intro q
    have hn32 : u32 n = n := u32_eq (by omega)
    simp only [DefaultPmm.linkedIn, setPageProperty, setProperty,
      setPage_pages, hn32]
    by_cases hq : q = base
    · subst hq
      simp
    · simp [hq]
  have hmem : ∀ a ∈ pre ++ ⟨base, n⟩ :: suf,
      a = ⟨base, n⟩ ∨ a ∈ pre ++ suf := by
    intro a ha
    rcases List.mem_append.1 ha with ha | ha
    · exact Or.inr (by simp [ha])
    · rcases List.mem_cons.1 ha with rfl | ha
      · exact Or.inl rfl
      · exact Or.inr (by simp [ha])
  have hback : ∀ a ∈ pre ++ suf, a ∈ pre ++ ⟨base, n⟩ :: suf := by
    intro a ha
    rcases List.mem_append.1 ha with ha | ha
    · exact List.mem_append_left _ ha
    · exact List.mem_append_right _ (List.mem_cons_of_mem _ ha)
  have hbase := hclear base (Nat.le_refl _) (Nat.lt_add_of_pos_right hn)
  refine ⟨hring, fun a ha => ?_, fun a ha => ?_, fun q hq => ?_,
    fun q hq => ?_, ?_⟩
  · rcases hmem a ha with rfl | ha
    · refine ⟨hn, fun q hq => ?_⟩
      exact Finset.mem_union_right _ (Finset.mem_Ico.2 hq)
    · obtain ⟨hpos, hin⟩ := hs.inside a ha
      exact ⟨hpos, fun q hq => Finset.mem_union_left _ (hin q hq)⟩
  · rcases hmem a ha with rfl | ha
    · rw [hpt, if_pos rfl]
    · have hne : a.start ≠ base := fun heq => hout a ha (by omega)
      rw [hpt, if_neg hne, (hframe _ (hout a ha)).1]
      exact hs.property a ha
  · by_cases hqb : q = base
    · subst hqb
      rw [hpt, if_pos rfl]
      simp only [true_iff]
      exact ⟨⟨q, n⟩, by simp, rfl⟩
    · have hstarts : (∃ a ∈ pre ++ ⟨base, n⟩ :: suf, a.start = q)
          ↔ ∃ a ∈ pre ++ suf, a.start = q := by
        constructor
        · intro h
          obtain ⟨a, ha, haq⟩ := h
          rcases hmem a ha with rfl | ha
          · exact absurd haq.symm hqb
          · exact ⟨a, ha, haq⟩
        · intro h
          obtain ⟨a, ha, haq⟩ := h
          exact ⟨a, hback a ha, haq⟩
      rw [hpt, if_neg hqb, hstarts]
      by_cases hin : base ≤ q ∧ q < base + n
      · rw [(hclear q hin.1 hin.2).2]
        simp only [Bool.false_eq_true, false_iff]
        intro h
        obtain ⟨a, ha, rfl⟩ := h
        exact hout a ha hin
      · rw [(hframe q hin).2.2]
        apply hs.head
        rcases Finset.mem_union.1 hq with hq | hq
        · exact hq
        · exact absurd (Finset.mem_Ico.1 hq) hin
  · rw [hpt]
    by_cases hqb : q = base
    · rw [if_pos hqb]
      exact hbase.1
    · rw [if_neg hqb]
      by_cases hin : base ≤ q ∧ q < base + n
      · exact (hclear q hin.1 hin.2).1
      · rw [(hframe q hin).2.1]
        apply hs.reserved
        rcases Finset.mem_union.1 hq with hq | hq
        · exact hq
        · exact absurd (Finset.mem_Ico.1 hq) hin
  · have hnr := hs.nrFree
    simp only [DefaultPmm.linkedIn, total_append, total_cons] at hnr hw ⊢
    rw [u32_eq (by omega), hnr]
    omega

-- ======================================================= giving back

/-- A held range lies between two neighbours of the free list. -/
theorem Holds.release_cut (hs : Holds M s A l) (hn : 0 < n)
    (hheld : Finset.Ico base (base + n) ⊆ A) :
    ∃ pre suf, l = pre ++ suf ∧ (∀ a ∈ pre, a.start < base)
      ∧ (∀ a ∈ pre, a.stop ≤ base) ∧ ∀ b ∈ suf, base + n ≤ b.start := by
  apply hs.laid.cut_around hn
  intro q h1 h2 hc
  exact ((hs.free q).1 hc).2 (hheld (Finset.mem_Ico.2 ⟨h1, h2⟩))

/-- The headers of a held range pass the check of `default_free_pages`:
neither flag is set. -/
theorem Holds.held_clear (hs : Holds M s A l) {q : Nat} (hq : q ∈ A) :
    (s.pages q).pgReserved = false ∧ (s.pages q).pgProperty = false := by
  refine ⟨hs.reserved q (hs.held hq), ?_⟩
  rw [Bool.eq_false_iff]
  intro hflag
  obtain ⟨a, ha, rfl⟩ := (hs.head q (hs.held hq)).1 hflag
  exact ((hs.free _).1 (hs.covers_start ha)).2 hq

/-- `default_free_pages` in terms of its three parts. -/
theorem defaultFreePages_eq {pages : Nat → Page} (hn : 0 < n)
    (hfree : freePages base n s.pages = some pages) :
    defaultFreePages fuel base n s
      = (linkBlock fuel s.links base).map fun links =>
          let t := mergePrev (linkedIn s pages links base n) base
          mergeNext t.1 t.2 := by
  simp only [defaultFreePages, hfree, if_neg (Nat.ne_of_gt hn)]
  simp only [setPageProperty, setProperty, setPage_links]
  cases hl : linkBlock fuel s.links base with
  | none => rfl
  | some links => rfl

/-- A place in the list is not the tail of a nonempty one when no page is
free, or one above it is. -/
theorem Holds.tail_iff (hs : Holds M s A (pre ++ suf)) (hn : 0 < n)
    (hpre : ∀ a ∈ pre, a.stop ≤ base) (hsuf : ∀ b ∈ suf, base + n ≤ b.start) :
    (suf = [] → pre = [])
      ↔ (∀ q ∈ M, q ∈ A) ∨ ∃ q ∈ M, base < q ∧ q ∉ A := by
  constructor
  · intro htail
    cases suf with
    | nil =>
        rw [htail rfl] at hs
        refine Or.inl fun q hq => ?_
        by_contra hfree
        exact covers_nil ((hs.free q).2 ⟨hq, hfree⟩)
    | cons b suf =>
        have hb : b ∈ pre ++ b :: suf := by simp
        obtain ⟨hm, hfree⟩ := (hs.free _).1 (hs.covers_start hb)
        have hle := hsuf b List.mem_cons_self
        exact Or.inr ⟨b.start, hm, by omega, hfree⟩
  · intro habove hnil
    subst hnil
    cases pre with
    | nil => rfl
    | cons a pre =>
        rcases habove with hall | ⟨q, hq, hlt, hfree⟩
        · have ha : a ∈ a :: pre ++ [] := by simp
          obtain ⟨hm, hfree⟩ := (hs.free _).1 (hs.covers_start ha)
          exact absurd (hall _ hm) hfree
        · obtain ⟨x, hx, -, hxq⟩ := (hs.free q).2 ⟨hq, hfree⟩
          have hstop := hpre x (by simpa using hx)
          omega

/-- What a call to `default_free_pages` does: the released pages lie between
two neighbours, and unless they go to the tail of a nonempty list the call
returns and coalesces them with what they touch. -/
theorem Holds.free_pages (hs : Holds M s A l) (hn : 0 < n)
    (hheld : Finset.Ico base (base + n) ⊆ A) :
    ∃ pre suf, l = pre ++ suf ∧ (∀ a ∈ pre, a.stop ≤ base)
      ∧ (∀ b ∈ suf, base + n ≤ b.start)
      ∧ ((suf = [] → pre = []) →
        (∃ s', defaultFreePages (l.length + 1) base n s = some s')
        ∧ ∀ fuel s', defaultFreePages fuel base n s = some s' →
          Holds M s' (A \ Finset.Ico base (base + n))
            (coalesce pre ⟨base, n⟩ suf)) := by
  obtain ⟨pre, suf, rfl, hpre, hprestop, hsuf⟩ := hs.release_cut hn hheld
  refine ⟨pre, suf, rfl, hprestop, hsuf, fun htail => ?_⟩
  obtain ⟨pages', hfree, hpages⟩ := freePages_spec fun q h1 h2 =>
    hs.held_clear (hheld (Finset.mem_Ico.2 ⟨h1, h2⟩))
  have hfuel : pre.length < (pre ++ suf).length + 1 := by
    rw [List.length_append]
    omega
  obtain ⟨links', hlink, hring⟩ := linkBlock_spec n hs.ring hpre
    (fun b hb => Nat.lt_of_lt_of_le (by omega) (hsuf b hb)) htail hfuel
  have hcount := hs.count
  have hnarrow := hs.narrow
  have hnr := hs.nrFree
  have hcard := Finset.card_le_card hheld
  rw [Nat.card_Ico] at hcard
  have hmanaged : M ∪ Finset.Ico base (base + n) = M :=
    Finset.union_eq_left.2 (hheld.trans hs.held)
  have hblocks : Blocks M (linkedIn s pages' links' base n)
      (pre ++ ⟨base, n⟩ :: suf) := by
    rw [← hmanaged]
    apply hs.toBlocks.linkedIn hn
    case hout =>
      intro a ha hin
      exact ((hs.free _).1 (hs.covers_start ha)).2
        (hheld (Finset.mem_Ico.2 hin))
    case hw => omega
    case hclear =>
      intro q h1 h2
      rw [hpages, if_pos ⟨h1, h2⟩]
      exact hs.held_clear (hheld (Finset.mem_Ico.2 ⟨h1, h2⟩))
    case hframe =>
      intro q hq
      rw [hpages, if_neg hq]
      exact ⟨rfl, rfl, rfl⟩
    case hring => exact hring
  have hw : total (pre ++ ⟨base, n⟩ :: suf) < 2 ^ 32 := by
    simp only [total_append, total_cons] at hnr ⊢
    omega
  obtain ⟨hprev, hbase'⟩ := mergePrev_spec hblocks hw
  have hlen : total (mergeLeft pre ⟨base, n⟩).1
      + (mergeLeft pre ⟨base, n⟩).2.len = total pre + n := mergeLeft_total
  have hw' : total ((mergeLeft pre ⟨base, n⟩).1
      ++ (mergeLeft pre ⟨base, n⟩).2 :: suf) < 2 ^ 32 := by
    simp only [total_append, total_cons] at hw hlen ⊢
    omega
  have hnext := mergeNext_spec hprev hw'
  rw [← hbase'] at hnext
  refine ⟨⟨_, by rw [defaultFreePages_eq hn hfree, hlink]; rfl⟩,
    fun fuel s' hs' => ?_⟩
  rw [defaultFreePages_eq hn hfree, Option.map_eq_some_iff] at hs'
  obtain ⟨links'', hlink'', rfl⟩ := hs'
  have hsame : links'' = links' := by
    have h1 := linkBlock_mono (k := (pre ++ suf).length + 1) hlink''
    have h2 := linkBlock_mono (k := fuel) hlink
    rw [Nat.add_comm, h1, Option.some.injEq] at h2
    exact h2
  subst hsame
  refine { hnext with
    laid := coalesce_spaced (Nat.zero_le 1) hs.laid hn hprestop hsuf
    free := fun q => ?_
    held := fun q hq => hs.held (Finset.mem_sdiff.1 hq).1
    count := ?_
    narrow := hs.narrow }
  · rw [coalesce_covers (e := ⟨base, n⟩) hs.laid hprestop, hs.free,
      Finset.mem_sdiff, Finset.mem_Ico]
    simp only [Has, stop]
    constructor
    · intro h
      rcases h with ⟨hm, ha⟩ | hin
      · exact ⟨hm, fun hq => ha hq.1⟩
      · have hq := hheld (Finset.mem_Ico.2 hin)
        exact ⟨hs.held hq, fun hq => hq.2 hin⟩
    · intro h
      obtain ⟨hm, hq⟩ := h
      by_cases ha : q ∈ A
      · exact Or.inr (not_not.1 fun hin => hq ⟨ha, hin⟩)
      · exact Or.inl ⟨hm, ha⟩
  · have htot : total (coalesce pre ⟨base, n⟩ suf) = total (pre ++ suf) + n :=
      coalesce_total
    rw [Finset.card_sdiff_of_subset hheld, Nat.card_Ico, hnext.nrFree]
    rw [coalesce] at htot
    omega

end Holds

/-- Page headers as `page_init` leaves them: every page reserved. -/
def reservedPages : Pmm where
  pages := fun _ => ⟨0, true, false, 0⟩
  links := ⟨fun e => e, fun e => e⟩
  nrFree := 0

-- ================================================ the tail insertion

section Tail

variable {n base fuel : Nat} {M A : Finset Nat} {s s' : Pmm}
  {pre : List Extent}

/-- The links of a block that was added behind the last one, and then behind
itself. -/
structure TailLinked (m : Links Entry) (base : Nat) : Prop where
  next : m.next (.pageLink base) = .freeList
  last : m.prev .freeList = .pageLink base
  self : m.prev (.pageLink base) = .pageLink base

/-- Nobody walks backwards past a last block that is its own predecessor. -/
theorem not_path_prev {m : Links Entry} {xs : List Entry}
    (hlast : m.prev .freeList = .pageLink base)
    (hself : m.prev (.pageLink base) = .pageLink base) :
    ¬ Path m.prev .freeList xs .freeList := by
  intro hpath
  cases xs with
  | nil =>
      have hend : m.prev .freeList = .freeList := hpath
      rw [hlast] at hend
      cases hend
  | cons x xs =>
      obtain ⟨hx, hrest⟩ := hpath
      rw [hlast] at hx
      rw [← hx] at hrest
      have hne : Entry.pageLink base ≠ .freeList := by simp
      exact Path.stuck hself hne hrest

theorem TailLinked.not_ring {m : Links Entry} {l : List Entry}
    (h : TailLinked m base) : ¬ IsRing m .freeList l := by
  intro hring
  exact not_path_prev h.last h.self hring.seg.path_prev

/-- The rounds of the insertion loop after it has added `base` at the
tail. -/
theorem linkBlockLoop_again {m m' : Links Entry} {le : Entry}
    (hle : le ≠ .pageLink base) (hnext : m.next le = .freeList)
    (h : linkBlockLoop base fuel (listAdd m le (.pageLink base)) le = some m') :
    TailLinked m' base := by
  have hnext₁ : (listAdd m le (.pageLink base)).next le = .pageLink base := by
    simp [listAdd, listAddAfter, hle]
  have hnext₂ : (listAdd m le (.pageLink base)).next (.pageLink base)
      = .freeList := by
    simp [listAdd, listAddAfter, listNext, hnext]
  -- the round that finds `base` itself, the last of the list
  cases fuel with
  | zero => cases h
  | succ fuel =>
      rw [linkBlockLoop] at h
      simp only [listNext, hnext₁, hnext₂, le2page, reduceCtorEq, if_false,
        if_true, Nat.lt_irrefl] at h
      -- the round after it has added `base` after itself
      cases fuel with
      | zero => cases h
      | succ fuel =>
          rw [linkBlockLoop] at h
          have hend : listNext (listAdd (listAdd m le (.pageLink base))
              (.pageLink base) (.pageLink base)) (.pageLink base)
              = .freeList := by
            simp [listAdd, listAddAfter, listNext, hnext]
          simp only [hend, if_true] at h
          cases h
          refine ⟨hend, ?_, ?_⟩
          · simp [listAdd, listAddAfter, listNext, hnext]
          · simp [listAdd, listAddAfter]

/-- A block above all others is added at the tail, and after itself. -/
theorem linkBlockLoop_tail {m m' : Links Entry} {vis mid : List Extent}
    (hr : IsRing m .freeList (cells (vis ++ mid)))
    (hmid : ∀ a ∈ mid, a.start < base) (hne : mid ≠ [])
    (h : linkBlockLoop base fuel m (before .freeList (cells vis)) = some m') :
    TailLinked m' base := by
  induction mid generalizing vis fuel with
  | nil => exact absurd rfl hne
  | cons a mid ih =>
      cases fuel with
      | zero => cases h
      | succ fuel =>
          have hr' : IsRing m .freeList (cells ((vis ++ [a]) ++ mid)) := by
            rw [List.append_assoc]
            exact hr
          have hnext : listNext m (before .freeList (cells vis))
              = .pageLink a.start := by
            rw [cells_append, cells_cons] at hr
            exact hr.next_before
          have hlt : a.start < base := hmid a List.mem_cons_self
          have hcut := hr'
          rw [cells_append] at hcut
          have hnext' := hcut.next_before
          rw [cells_append, cells_cons, cells_nil, before_concat] at hnext'
          have hnot : ¬ base < a.start := Nat.not_lt_of_lt hlt
          rw [linkBlockLoop] at h
          simp only [hnext, le2page, reduceCtorEq, if_false, hnot] at h
          cases mid with
          | nil =>
              have hend : listNext m (.pageLink a.start) = .freeList := hnext'
              rw [if_pos hend] at h
              have hother : Entry.pageLink a.start ≠ .pageLink base := by
                intro heq
                cases heq
                exact Nat.lt_irrefl _ hlt
              exact linkBlockLoop_again hother hend h
          | cons b mid =>
              have hmore : listNext m (.pageLink a.start) ≠ .freeList := by
                rw [listNext, hnext']
                simp
              rw [if_neg hmore] at h
              apply ih hr' (fun c hc => hmid c (List.mem_cons_of_mem a hc))
                (List.cons_ne_nil b mid)
              rw [cells_append, cells_cons, cells_nil, before_concat]
              exact h

/-- A block that is released to the tail of a nonempty list is merged with
no other. -/
theorem Holds.free_tail (hs : Holds M s A pre) (hn : 0 < n)
    (hheld : Finset.Ico base (base + n) ⊆ A)
    (hpre : ∀ a ∈ pre, a.start < base) (hne : pre ≠ [])
    (h : defaultFreePages fuel base n s = some s') :
    TailLinked s'.links base := by
  have hring : IsRing s.links .freeList (cells ([] ++ pre)) := hs.ring
  obtain ⟨pages', hfree, hpages⟩ := freePages_spec fun q h1 h2 =>
    hs.held_clear (hheld (Finset.mem_Ico.2 ⟨h1, h2⟩))
  rw [defaultFreePages_eq hn hfree, Option.map_eq_some_iff] at h
  obtain ⟨links, hlink, rfl⟩ := h
  have htail : TailLinked links base := by
    have hnonempty : listEmpty s.links .freeList = false := by
      rw [Bool.eq_false_iff]
      intro hempty
      have hcells := (listEmpty_ring hring).1 hempty
      exact hne (List.map_eq_nil_iff.1 hcells)
    unfold linkBlock at hlink
    rw [hnonempty] at hlink
    exact linkBlockLoop_tail hring hpre hne hlink
  have hwidth : u32 n = n := by
    have hcount := hs.count
    have hnarrow := hs.narrow
    have hcard := Finset.card_le_card hheld
    rw [Nat.card_Ico] at hcard
    exact u32_eq (by omega)
  -- the block's `prev` leads to itself, where it does not end
  have hprop : ((linkedIn s pages' links base n).pages base).property = n := by
    simp [linkedIn, setPageProperty, setProperty, hwidth]
  have hprev : mergePrev (linkedIn s pages' links base n) base
      = (linkedIn s pages' links base n, base) := by
    have hself : listPrev (linkedIn s pages' links base n).links
        (.pageLink base) = .pageLink base := htail.self
    have hends : base + n ≠ base := by omega
    unfold mergePrev
    simp only [hself, le2page, hprop, hends, if_false, ne_eq, reduceCtorEq,
      not_false_eq_true, if_true]
  have hnext : mergeNext (linkedIn s pages' links base n) base
      = linkedIn s pages' links base n := by
    have hend : listNext (linkedIn s pages' links base n).links
        (.pageLink base) = .freeList := htail.next
    unfold mergeNext
    simp only [hend, ne_eq, not_true_eq_false, if_false]
  simp only [hprev, hnext]
  exact htail

end Tail

end Ucore.DefaultPmm
