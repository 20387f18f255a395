/-
The buddy allocator hands out blocks that do not overlap.

# The blocks

At any time the managed region is divided into blocks (`Block`): those on a
free list, those handed out, and, inside a call, one that is neither. No
page is in two of them (`Good.apart`). A call splits a block in two, joins
two to one, or moves one between the lists and the callers.

# The marks

The allocator finds the buddy of a block by its page descriptor, and a
descriptor keeps its mark when its block is merged into a larger one. What
makes this safe is `Good.marks`: a page that carries the mark of a free
block of some order either heads a free block of that order, or lies inside
a larger block together with its buddy, and then its buddy is not a block
that could ask for it. This holds of the marks the allocator has set. It
says nothing of the marks that were there before: `buddy_init_memmap` does
not clear them.
-/
import Ucore.Lib.Dyadic
import Ucore.Mm.BuddyPmm
import Mathlib.Data.List.Nodup
import Mathlib.Data.Nat.Log

namespace Ucore.Buddy

open Ring Dyadic

variable {lo hi x y z k m j n base order left current : Nat} {s s' : State}
  {fl : Nat → List Nat} {H H' : Nat → Nat → Prop} {f : Option (Nat × Nat)}
  {exc : Nat → Nat → Prop} {l pre suf : List Nat} {w w' : World} {lb : Label}

-- ======================================================== the blocks

/-- The blocks: on a free list, handed out, or in the hands of a call. -/
def Block (fl : Nat → List Nat) (H : Nat → Nat → Prop)
    (f : Option (Nat × Nat)) (x k : Nat) : Prop :=
  x ∈ fl k ∨ H x k ∨ f = some (x, k)

/-- The rings that the free lists are. -/
def FreeRings (links : Links Entry) (fl : Nat → List Nat) : Prop :=
  Rings links {k | k ≤ maxOrder} Entry.freeList
    (fun k => (fl k).map Entry.pageLink)

theorem FreeRings.del {links : Links Entry} (h : FreeRings links fl)
    (hk : k ≤ maxOrder) (hl : fl k = pre ++ x :: suf) :
    FreeRings (listDel links (.pageLink x))
      (Function.update fl k (pre ++ suf)) := by
  have hmap : (fl k).map Entry.pageLink
      = pre.map Entry.pageLink ++ Entry.pageLink x
        :: suf.map Entry.pageLink := by
    rw [hl, List.map_append, List.map_cons]
  have hdel := Rings.del h hk hmap
  have hL : Function.update (fun k => (fl k).map Entry.pageLink) k
      (pre.map Entry.pageLink ++ suf.map Entry.pageLink)
        = fun m => (Function.update fl k (pre ++ suf) m).map
            Entry.pageLink := by
    funext m
    by_cases hm : m = k
    · subst hm
      simp
    · simp [hm]
  rw [hL] at hdel
  exact hdel

theorem FreeRings.add {links : Links Entry} (h : FreeRings links fl)
    (hk : k ≤ maxOrder) (hx : ∀ m, x ∉ fl m) :
    FreeRings (listAdd links (.freeList k) (.pageLink x))
      (Function.update fl k (x :: fl k)) := by
  have hfresh : ∀ m ∈ {k | k ≤ maxOrder},
      Entry.pageLink x ∉ Entry.freeList m :: (fl m).map Entry.pageLink := by
    intro m _ hmem
    simp only [List.mem_cons, reduceCtorEq, List.mem_map, Entry.pageLink.injEq,
      exists_eq_right, false_or] at hmem
    exact hx m hmem
  have hadd := Rings.add h hk hfresh
  have hL : Function.update (fun k => (fl k).map Entry.pageLink) k
      (Entry.pageLink x :: (fl k).map Entry.pageLink)
        = fun m => (Function.update fl k (x :: fl k) m).map
            Entry.pageLink := by
    funext m
    by_cases hm : m = k
    · subst hm
      simp
    · simp [hm]
  rw [hL] at hadd
  exact hadd

/-- The state of the allocator between two list operations. `exc` excepts
the marks that the call in progress has not settled yet. -/
structure Good (lo hi : Nat) (s : State) (fl : Nat → List Nat)
    (H : Nat → Nat → Prop) (f : Option (Nat × Nat))
    (exc : Nat → Nat → Prop) : Prop where
  rings : FreeRings s.links fl
  deep : ∀ k, maxOrder < k → fl k = []
  apart : Apart (Block fl H f)
  within : Within (Block fl H f) lo hi
  free_not_held : ∀ x k, x ∈ fl k → ¬ H x k
  floating : ∀ x k, f = some (x, k) → x ∉ fl k ∧ ¬ H x k
  clear : ∀ x k, H x k → (s.pages x).pgProperty = false
  marks : ∀ z j, s.touched z = true → (s.pages z).pgProperty = true →
    (s.pages z).property = 2 ^ j →
    z ∈ fl j ∨ Inside (Block fl H f) z j ∨ exc z j

/-- No mark is excepted. -/
def settled (_ _ : Nat) : Prop := False

theorem Good.le_maxOrder (h : Good lo hi s fl H f exc) (hx : x ∈ fl k) :
    k ≤ maxOrder := by
  by_contra hk
  rw [h.deep k (not_le.1 hk)] at hx
  exact List.not_mem_nil hx

theorem Good.nodup (h : Good lo hi s fl H f exc) (hk : k ≤ maxOrder) :
    (fl k).Nodup := by
  have hring := (h.rings.ring k hk).nodup
  exact List.Nodup.of_map _ (List.nodup_cons.1 hring).2

/-- A free list with one entry less. -/
theorem mem_update_cut (hl : fl k = pre ++ x :: suf) (hnd : (fl k).Nodup) :
    y ∈ Function.update fl k (pre ++ suf) m
      ↔ y ∈ fl m ∧ ¬ (y = x ∧ m = k) := by
  by_cases hm : m = k
  · subst hm
    rw [Function.update_self, hl]
    rw [hl] at hnd
    have hx : x ∉ pre ++ suf :=
      (List.nodup_cons.1 (List.nodup_middle.1 hnd)).1
    constructor
    · intro hy
      refine ⟨?_, fun hyx => hx (hyx.1 ▸ hy)⟩
      rcases List.mem_append.1 hy with hy | hy
      · exact List.mem_append_left _ hy
      · exact List.mem_append_right _ (List.mem_cons_of_mem x hy)
    · intro hy
      obtain ⟨hy, hne⟩ := hy
      rcases List.mem_append.1 hy with hy | hy
      · exact List.mem_append_left _ hy
      · rcases List.mem_cons.1 hy with heq | hy
        · exact absurd ⟨heq, rfl⟩ hne
        · exact List.mem_append_right _ hy
  · rw [Function.update_of_ne hm]
    simp [hm]

/-- A free list with one entry more. -/
theorem mem_update_cons :
    y ∈ Function.update fl k (x :: fl k) m
      ↔ y ∈ fl m ∨ (y = x ∧ m = k) := by
  by_cases hm : m = k
  · subst hm
    rw [Function.update_self]
    simp [or_comm]
  · rw [Function.update_of_ne hm]
    simp [hm]

-- ======================================================== allocating

/-- Taking a block off its free list. -/
theorem Good.take (h : Good lo hi s fl H none settled) (hk : k ≤ maxOrder)
    (hl : fl k = x :: l) :
    Good lo hi
      { s with
        links := listDel s.links (.pageLink x)
        nrFree := Function.update s.nrFree k (s.nrFree k - 1) }
      (Function.update fl k l) H (some (x, k)) (fun z _ => z = x) := by
  have hcut : fl k = [] ++ x :: l := hl
  have hmem : ∀ y m, y ∈ Function.update fl k l m
      ↔ y ∈ fl m ∧ ¬ (y = x ∧ m = k) := fun y m =>
    mem_update_cut hcut (h.nodup hk)
  have hx : x ∈ fl k := hl ▸ List.mem_cons_self
  have hback : ∀ y m, Block (Function.update fl k l) H (some (x, k)) y m →
      Block fl H none y m := by
    intro y m hy
    rcases hy with hy | hy | hy
    · exact .inl ((hmem y m).1 hy).1
    · exact .inr (.inl hy)
    · cases hy
      exact .inl hx
  have hforth : ∀ y m, Block fl H none y m →
      Block (Function.update fl k l) H (some (x, k)) y m := by
    intro y m hy
    by_cases heq : y = x ∧ m = k
    · exact .inr (.inr (by rw [heq.1, heq.2]))
    · rcases hy with hy | hy | hy
      · exact .inl ((hmem y m).2 ⟨hy, heq⟩)
      · exact .inr (.inl hy)
      · cases hy
  refine
    { rings := ?_, deep := ?_, apart := ?_, within := ?_,
      free_not_held := ?_, floating := ?_, clear := h.clear, marks := ?_ }
  · exact h.rings.del hk hcut
  · intro m hm
    rw [Function.update_of_ne (by omega)]
    exact h.deep m hm
  · intro y m y' m' p hy hy'
    exact h.apart y m y' m' p (hback y m hy) (hback y' m' hy')
  · intro y m hy
    exact h.within y m (hback y m hy)
  · intro y m hy
    exact h.free_not_held y m ((hmem y m).1 hy).1
  · intro y m hy
    cases hy
    exact ⟨fun hy => ((hmem x k).1 hy).2 ⟨rfl, rfl⟩, h.free_not_held x k hx⟩
  · intro z j ht hp hj
    rcases h.marks z j ht hp hj with hz | hz | hz
    · by_cases heq : z = x
      · exact .inr (.inr heq)
      · exact .inl ((hmem z j).2 ⟨hz, fun h => heq h.1⟩)
    · exact .inr (.inl (hz.congr hforth))
    · exact hz.elim

/-- A free list with an entry put in front, as blocks. -/
theorem block_cons_iff :
    Block (Function.update fl k (x :: fl k)) H f y m
      ↔ Block fl H f y m ∨ (y = x ∧ m = k) := by
  unfold Block
  rw [mem_update_cons]
  tauto

/-- The upper half of the block in hand is not the first page of a block. -/
theorem Good.upper_fresh (h : Good lo hi s fl H (some (x, k + 1)) exc) (m : Nat) :
    ¬ Block fl H (some (x, k + 1)) (x + 2 ^ k) m := by
  intro hm
  have hpos := Nat.two_pow_pos k
  have heq := h.apart x (k + 1) (x + 2 ^ k) m (x + 2 ^ k) (.inr (.inr rfl)) hm
    (by omega) (by rw [Nat.pow_succ]; omega) (le_refl _)
    (Nat.lt_add_of_pos_right (Nat.two_pow_pos m))
  omega

/-- Splitting the block in hand: its upper half goes on a free list. -/
theorem Good.split (h : Good lo hi s fl H (some (x, k + 1)) (fun z _ => z = x))
    (hk : k ≤ maxOrder)
    (hs : s' = ((s.setProperty (x + 2 ^ k) (2 ^ k)).setPgProperty
      (x + 2 ^ k) true).addFree k (x + 2 ^ k)) :
    Good lo hi s' (Function.update fl k ((x + 2 ^ k) :: fl k)) H
      (some (x, k)) (fun z _ => z = x) := by
  have hpos := Nat.two_pow_pos k
  have hwhole : Block fl H (some (x, k + 1)) x (k + 1) := .inr (.inr rfl)
  have hfresh := h.upper_fresh
  obtain ⟨hxfree, hxheld⟩ := h.floating x (k + 1) rfl
  have hforth : ∀ y m, Dyadic.Split (Block fl H (some (x, k + 1))) x k y m →
      Block (Function.update fl k ((x + 2 ^ k) :: fl k)) H (some (x, k))
        y m := by
    intro y m hy
    rw [block_cons_iff]
    rcases hy with ⟨hy, hne⟩ | ⟨rfl, hy⟩
    · rcases hy with hy | hy | hy
      · exact .inl (.inl hy)
      · exact .inl (.inr (.inl hy))
      · cases hy
        exact absurd ⟨rfl, rfl⟩ hne
    · rcases hy with rfl | rfl
      · exact .inl (.inr (.inr rfl))
      · exact .inr ⟨rfl, rfl⟩
  have hback : ∀ y m,
      Block (Function.update fl k ((x + 2 ^ k) :: fl k)) H (some (x, k))
        y m →
      Dyadic.Split (Block fl H (some (x, k + 1))) x k y m := by
    intro y m hy
    rw [block_cons_iff] at hy
    rcases hy with (hy | hy | hy) | ⟨rfl, rfl⟩
    · refine .inl ⟨.inl hy, fun heq => hxfree ?_⟩
      rw [← heq.1, ← heq.2]
      exact hy
    · refine .inl ⟨.inr (.inl hy), fun heq => hxheld ?_⟩
      rw [← heq.1, ← heq.2]
      exact hy
    · cases hy
      exact .inr ⟨rfl, .inl rfl⟩
    · exact .inr ⟨rfl, .inr rfl⟩
  subst hs
  refine
    { rings := ?_, deep := ?_, apart := ?_, within := ?_,
      free_not_held := ?_, floating := ?_, clear := ?_, marks := ?_ }
  · exact h.rings.add hk (fun m hm => hfresh m (.inl hm))
  · intro m hm
    rw [Function.update_of_ne (by omega)]
    exact h.deep m hm
  · intro y m y' m' p hy hy'
    exact h.apart.split hwhole y m y' m' p (hback y m hy) (hback y' m' hy')
  · intro y m hy
    exact h.within.split hwhole y m (hback y m hy)
  · intro y m hy
    rcases mem_update_cons.1 hy with hy | ⟨rfl, rfl⟩
    · exact h.free_not_held y m hy
    · exact fun hheld => hfresh m (.inr (.inl hheld))
  · intro y m hy
    cases hy
    have hx : ∀ m, Block fl H (some (x, k + 1)) x m → m = k + 1 := fun m hm =>
      h.apart.order_unique hm hwhole
    refine ⟨fun hmem => ?_, fun hheld => ?_⟩
    · rcases mem_update_cons.1 hmem with hmem | hmem
      · have hm := hx k (.inl hmem)
        omega
      · omega
    · have hm := hx k (.inr (.inl hheld))
      omega
  · intro y m hy
    have hne : y ≠ x + 2 ^ k := by
      intro heq
      rw [heq] at hy
      exact hfresh m (.inr (.inl hy))
    simpa [State.addFree, State.setPgProperty, State.setProperty,
      State.setPage, hne] using h.clear y m hy
  · intro z j ht hp hj
    by_cases hz : z = x + 2 ^ k
    · subst hz
      have hmod : 2 ^ k % 2 ^ 32 = 2 ^ k :=
        Nat.mod_eq_of_lt (Nat.pow_lt_pow_right (by omega)
          (by unfold maxOrder at hk; omega))
      have hjk : k = j := by
        simp only [State.addFree, State.setPgProperty, State.setProperty,
          State.setPage, Function.update_self, hmod] at hj
        exact Nat.pow_right_injective (le_refl 2) hj
      subst hjk
      exact .inl (mem_update_cons.2 (.inr ⟨rfl, rfl⟩))
    · simp only [State.addFree, State.setPgProperty, State.setProperty,
        State.setPage, Function.update_of_ne hz] at ht hp hj
      rcases h.marks z j ht hp hj with hm | hm | hm
      · exact .inl (mem_update_cons.2 (.inl hm))
      · rcases Inside.split (x := x) (k := k) hm with hm | ⟨rfl, hm⟩
        · exact .inr (.inl (hm.congr hforth))
        · rcases hm with hm | hm
          · exact .inr (.inr hm)
          · exact absurd hm hz
      · exact .inr (.inr hm)

/-- What a round of the splitting loop does. -/
def State.splitOff (s : State) (x k : Nat) : State :=
  ((s.setProperty (x + 2 ^ k) (2 ^ k)).setPgProperty (x + 2 ^ k) true).addFree k
    (x + 2 ^ k)

/-- What each round of the splitting loop preserves holds after it. -/
theorem splitLoop_rec {P : State → (Nat → List Nat) → Nat → Prop}
    (hround : ∀ {s fl k}, k ≤ maxOrder → P s fl (k + 1) →
      P (s.splitOff x k) (Function.update fl k ((x + 2 ^ k) :: fl k)) k)
    (h : P s fl current) (hle : order ≤ current) (hmax : current ≤ maxOrder) :
    ∃ fl', P (splitLoop order x current s) fl' order := by
  induction current generalizing s fl with
  | zero =>
      obtain rfl : order = 0 := Nat.le_zero.1 hle
      exact ⟨fl, h⟩
  | succ k ih =>
      unfold splitLoop
      split
      case isTrue hlt =>
        exact ih (hround (by omega) h) (by omega) (by omega)
      case isFalse hge =>
        obtain rfl : order = k + 1 := by omega
        exact ⟨fl, h⟩

/-- The splitting loop brings the block in hand down to the order asked for. -/
theorem Good.splitLoop
    (h : Good lo hi s fl H (some (x, current)) (fun z _ => z = x))
    (hle : order ≤ current) (hmax : current ≤ maxOrder) :
    ∃ fl', Good lo hi (Buddy.splitLoop order x current s) fl' H
      (some (x, order)) (fun z _ => z = x) := by
  apply splitLoop_rec (P := fun s fl k =>
    Good lo hi s fl H (some (x, k)) (fun z _ => z = x)) ?_ h hle hmax
  intro s fl k hk h
  exact h.split hk rfl

/-- The block in hand is handed out. -/
theorem Good.handOut
    (h : Good lo hi s fl H (some (x, k)) (fun z _ => z = x))
    (hH : ∀ y m, H' y m ↔ H y m ∨ (y = x ∧ m = k))
    (hs : s' = (s.setPgProperty x false).setProperty x n) :
    Good lo hi s' fl H' none settled := by
  have hblock : ∀ y m, Block fl H' none y m ↔ Block fl H (some (x, k)) y m := by
    intro y m
    unfold Block
    rw [hH]
    simp only [reduceCtorEq, or_false, Option.some.injEq, Prod.mk.injEq]
    rw [eq_comm (a := x), eq_comm (a := k)]
  subst hs
  refine
    { rings := h.rings, deep := h.deep, apart := ?_, within := ?_,
      free_not_held := ?_, floating := ?_, clear := ?_, marks := ?_ }
  · intro y m y' m' p hy hy'
    exact h.apart y m y' m' p ((hblock y m).1 hy) ((hblock y' m').1 hy')
  · intro y m hy
    exact h.within y m ((hblock y m).1 hy)
  · intro y m hy hheld
    rcases (hH y m).1 hheld with hheld | ⟨rfl, rfl⟩
    · exact h.free_not_held y m hy hheld
    · exact (h.floating y m rfl).1 hy
  · intro y m hy
    cases hy
  · intro y m hy
    by_cases hyx : y = x
    · subst hyx
      simp [State.setPgProperty, State.setProperty, State.setPage]
    · rcases (hH y m).1 hy with hy | hy
      · simpa [State.setPgProperty, State.setProperty, State.setPage, hyx]
          using h.clear y m hy
      · exact absurd hy.1 hyx
  · intro z j ht hp hj
    by_cases hz : z = x
    · subst hz
      simp [State.setPgProperty, State.setProperty, State.setPage] at hp
    · simp only [State.setPgProperty, State.setProperty, State.setPage,
        Function.update_of_ne hz] at ht hp hj
      rcases h.marks z j ht hp hj with hm | hm | hm
      · exact .inl hm
      · exact .inr (.inl (hm.congr fun y m => (hblock y m).2))
      · exact absurd hm hz

/-- What taking a block off its free list does. -/
def State.takeFree (s : State) (k x : Nat) : State :=
  { s with
    links := listDel s.links (.pageLink x)
    nrFree := Function.update s.nrFree k (s.nrFree k - 1) }

/-- The search takes the first block of some list and splits it, or changes
nothing. -/
theorem allocLoop_cases (h : FreeRings s.links fl) (hcur : order ≤ current)
    (hleft : current + left ≤ maxOrder + 1) {r : Option Nat}
    (hcall : allocLoop order n left current s = some (r, s')) :
    (r = none ∧ s' = s) ∨ ∃ c x l, order ≤ c ∧ c ≤ maxOrder ∧ fl c = x :: l
      ∧ r = some x ∧ s' = ((splitLoop order x c (s.takeFree c x)).setPgProperty
        x false).setProperty x n := by
  induction left generalizing current with
  | zero =>
      cases hcall
      exact .inl ⟨rfl, rfl⟩
  | succ left ih =>
      have hring := h.ring current (show current ≤ maxOrder by omega)
      unfold allocLoop at hcall
      split at hcall
      case isTrue _ => exact ih (by omega) (by omega) hcall
      case isFalse hne =>
        cases hfl : fl current with
        | nil =>
            refine absurd ((listEmpty_ring hring).2 ?_) hne
            rw [hfl]
            rfl
        | cons x l =>
            have hnext : listNext s.links (.freeList current) = .pageLink x := by
              rw [hfl] at hring
              have hcut : IsRing s.links (.freeList current)
                  ([] ++ (x :: l).map Entry.pageLink) := hring
              exact hcut.next_before
            simp only [hnext, le2page] at hcall
            cases hcall
            exact .inr ⟨current, x, l, hcur, by omega, hfl, rfl, rfl⟩

/-- The search hands out a block of the order asked for, or changes nothing. -/
theorem Good.allocLoop (h : Good lo hi s fl H none settled)
    (hcur : order ≤ current) (hleft : current + left ≤ maxOrder + 1)
    {r : Option Nat}
    (hcall : Buddy.allocLoop order n left current s = some (r, s')) :
    (r = none ∧ s' = s) ∨ ∃ p, r = some p ∧ ∀ H' : Nat → Nat → Prop,
      (∀ y m, H' y m ↔ H y m ∨ (y = p ∧ m = order)) →
      ¬ (∃ m, H p m) ∧ ∃ fl', Good lo hi s' fl' H' none settled := by
  rcases allocLoop_cases h.rings hcur hleft hcall with
    hnone | ⟨c, x, l, hle, hmax, hfl, rfl, hs⟩
  · exact .inl hnone
  · refine .inr ⟨x, rfl, fun H' hH => ?_⟩
    obtain ⟨fl', hsplit⟩ := (h.take hmax hfl).splitLoop hle hmax
    refine ⟨?_, fl', hsplit.handOut hH hs⟩
    intro hheld
    obtain ⟨m, hm⟩ := hheld
    have hx : x ∈ fl c := hfl ▸ List.mem_cons_self
    have hmk := h.apart.order_unique (.inl hx) (.inr (.inl hm))
    exact h.free_not_held x c hx (hmk ▸ hm)

-- =========================================================== freeing

/-- The mark of the block in hand is not settled. -/
def atHand (x k z j : Nat) : Prop := z = x ∧ j = k

/-- A block comes back from its caller and is marked. -/
theorem Good.takeBack (h : Good lo hi s fl H none settled) (hk : k ≤ maxOrder)
    (hx : H x k) (hH : ∀ y m, H' y m ↔ H y m ∧ ¬ (y = x ∧ m = k))
    (hs : s' = (s.setProperty x (2 ^ k)).setPgProperty x true) :
    Good lo hi s' fl H' (some (x, k)) (atHand x k) := by
  have hblock : ∀ y m, Block fl H' (some (x, k)) y m ↔ Block fl H none y m := by
    intro y m
    constructor
    · intro hy
      rcases hy with hy | hy | hy
      · exact .inl hy
      · exact .inr (.inl ((hH y m).1 hy).1)
      · cases hy
        exact .inr (.inl hx)
    · intro hy
      by_cases heq : y = x ∧ m = k
      · exact .inr (.inr (by rw [heq.1, heq.2]))
      · rcases hy with hy | hy | hy
        · exact .inl hy
        · exact .inr (.inl ((hH y m).2 ⟨hy, heq⟩))
        · cases hy
  subst hs
  refine
    { rings := h.rings, deep := h.deep, apart := ?_, within := ?_,
      free_not_held := ?_, floating := ?_, clear := ?_, marks := ?_ }
  · intro y m y' m' p hy hy'
    exact h.apart y m y' m' p ((hblock y m).1 hy) ((hblock y' m').1 hy')
  · intro y m hy
    exact h.within y m ((hblock y m).1 hy)
  · intro y m hy hheld
    exact h.free_not_held y m hy ((hH y m).1 hheld).1
  · intro y m hy
    cases hy
    exact ⟨fun hfree => h.free_not_held x k hfree hx,
      fun hheld => ((hH x k).1 hheld).2 ⟨rfl, rfl⟩⟩
  · intro y m hy
    obtain ⟨hy, hne⟩ := (hH y m).1 hy
    have hyx : y ≠ x := by
      intro heq
      subst heq
      exact hne ⟨rfl, h.apart.order_unique (.inr (.inl hy)) (.inr (.inl hx))⟩
    simpa [State.setPgProperty, State.setProperty, State.setPage, hyx]
      using h.clear y m hy
  · intro z j ht hp hj
    by_cases hz : z = x
    · subst hz
      have hmod : 2 ^ k % 2 ^ 32 = 2 ^ k :=
        Nat.mod_eq_of_lt (Nat.pow_lt_pow_right (by omega)
          (by unfold maxOrder at hk; omega))
      simp only [State.setPgProperty, State.setProperty, State.setPage,
        Function.update_self, hmod] at hj
      exact .inr (.inr ⟨rfl, (Nat.pow_right_injective (le_refl 2) hj).symm⟩)
    · simp only [State.setPgProperty, State.setProperty, State.setPage,
        Function.update_of_ne hz] at ht hp hj
      rcases h.marks z j ht hp hj with hm | hm | hm
      · exact .inl hm
      · exact .inr (.inl (hm.congr fun y m => (hblock y m).2))
      · exact hm.elim

/-- A buddy that the allocator has marked as a free block of the order of the
block in hand is one. -/
theorem Good.buddy_free (h : Good lo hi s fl H (some (x, k)) (atHand x k))
    (ht : s.touched (partner x k) = true)
    (hp : (s.pages (partner x k)).pgProperty = true)
    (hj : (s.pages (partner x k)).property = 2 ^ k) : partner x k ∈ fl k := by
  have hx : Block fl H (some (x, k)) x k := .inr (.inr rfl)
  rcases h.marks _ _ ht hp hj with hm | hm | hm
  · exact hm
  · -- then `x` would be inside a larger block, too
    exact absurd hm.symm (h.apart.not_inside hx)
  · exact absurd hm.1 (partner_ne x k)

/-- The block in hand is joined with its buddy. -/
theorem Good.merge (h : Good lo hi s fl H (some (x, k)) (atHand x k))
    (hb : partner x k ∈ fl k) (hfl : fl k = pre ++ partner x k :: suf)
    (hs : s' = ({ s with links := listDel s.links (.pageLink (partner x k)) } :
      State).setPgProperty (partner x k) false) :
    Good lo hi s' (Function.update fl k (pre ++ suf)) H
      (some (min x (partner x k), k + 1))
      (atHand (min x (partner x k)) (k + 1)) := by
  have hk := h.le_maxOrder hb
  have hx : Block fl H (some (x, k)) x k := .inr (.inr rfl)
  have hbuddy : Block fl H (some (x, k)) (partner x k) k := .inl hb
  have hmem : ∀ y m, y ∈ Function.update fl k (pre ++ suf) m
      ↔ y ∈ fl m ∧ ¬ (y = partner x k ∧ m = k) := fun y m =>
    mem_update_cut hfl (h.nodup hk)
  obtain ⟨hxfree, hxheld⟩ := h.floating x k rfl
  have hforth : ∀ y m, Dyadic.Join (Block fl H (some (x, k))) x k y m →
      Block (Function.update fl k (pre ++ suf)) H
        (some (min x (partner x k), k + 1)) y m := by
    intro y m hy
    rcases hy with ⟨hy, hne⟩ | ⟨rfl, rfl⟩
    · rcases hy with hy | hy | hy
      · exact .inl ((hmem y m).2 ⟨hy, fun heq => hne ⟨heq.2, .inr heq.1⟩⟩)
      · exact .inr (.inl hy)
      · cases hy
        exact absurd ⟨rfl, .inl rfl⟩ hne
    · exact .inr (.inr rfl)
  have hback : ∀ y m,
      Block (Function.update fl k (pre ++ suf)) H
        (some (min x (partner x k), k + 1)) y m →
      Dyadic.Join (Block fl H (some (x, k))) x k y m := by
    intro y m hy
    rcases hy with hy | hy | hy
    · obtain ⟨hfree, hne⟩ := (hmem y m).1 hy
      refine .inl ⟨.inl hfree, fun heq => ?_⟩
      obtain ⟨rfl, hyx | hyx⟩ := heq
      · exact hxfree (hyx ▸ hfree)
      · exact hne ⟨hyx, rfl⟩
    · refine .inl ⟨.inr (.inl hy), fun heq => ?_⟩
      obtain ⟨rfl, hyx | hyx⟩ := heq
      · exact hxheld (hyx ▸ hy)
      · exact h.free_not_held _ _ hb (hyx ▸ hy)
    · cases hy
      exact .inr ⟨rfl, rfl⟩
  have hjoined : ∀ m, Block fl H (some (x, k)) (min x (partner x k)) m →
      m = k := by
    intro m hm
    rcases min_choice x (partner x k) with hmin | hmin
    · rw [hmin] at hm
      exact h.apart.order_unique hm hx
    · rw [hmin] at hm
      exact h.apart.order_unique hm hbuddy
  subst hs
  refine
    { rings := h.rings.del hk hfl, deep := ?_, apart := ?_, within := ?_,
      free_not_held := ?_, floating := ?_, clear := ?_, marks := ?_ }
  · intro m hm
    rw [Function.update_of_ne (by omega)]
    exact h.deep m hm
  · intro y m y' m' p hy hy'
    exact h.apart.join hx hbuddy y m y' m' p (hback y m hy) (hback y' m' hy')
  · intro y m hy
    exact h.within.join hx hbuddy y m (hback y m hy)
  · intro y m hy
    exact h.free_not_held y m ((hmem y m).1 hy).1
  · intro y m hy
    cases hy
    refine ⟨fun hfree => ?_, fun hheld => ?_⟩
    · have hm := hjoined (k + 1) (.inl ((hmem _ _).1 hfree).1)
      omega
    · have hm := hjoined (k + 1) (.inr (.inl hheld))
      omega
  · intro y m hy
    have hne : y ≠ partner x k := by
      intro heq
      rw [heq] at hy
      have hmk := h.apart.order_unique (.inr (.inl hy)) hbuddy
      exact h.free_not_held _ _ hb (hmk ▸ hy)
    simpa [State.setPgProperty, State.setPage, hne] using h.clear y m hy
  · intro z j ht hp hj
    by_cases hz : z = partner x k
    · subst hz
      simp [State.setPgProperty, State.setPage] at hp
    · simp only [State.setPgProperty, State.setPage,
        Function.update_of_ne hz] at ht hp hj
      rcases h.marks z j ht hp hj with hm | hm | hm
      · exact .inl ((hmem z j).2 ⟨hm, fun heq => hz heq.1⟩)
      · exact .inr (.inl (hm.join.congr hforth))
      · obtain ⟨rfl, rfl⟩ := hm
        exact .inr (.inl (Inside.joined.congr hforth))

/-- The block in hand goes on the free list of its order. -/
theorem Good.release (h : Good lo hi s fl H (some (x, k)) (atHand x k))
    (hk : k ≤ maxOrder) :
    Good lo hi (s.addFree k x) (Function.update fl k (x :: fl k)) H none
      settled := by
  have hx : Block fl H (some (x, k)) x k := .inr (.inr rfl)
  have hblock : ∀ y m, Block (Function.update fl k (x :: fl k)) H none y m
      ↔ Block fl H (some (x, k)) y m := by
    intro y m
    rw [block_cons_iff]
    unfold Block
    simp only [reduceCtorEq, or_false, Option.some.injEq, Prod.mk.injEq]
    rw [eq_comm (a := x), eq_comm (a := k), or_assoc]
  obtain ⟨hxfree, hxheld⟩ := h.floating x k rfl
  refine
    { rings := ?_, deep := ?_, apart := ?_, within := ?_,
      free_not_held := ?_, floating := ?_, clear := h.clear, marks := ?_ }
  · refine h.rings.add hk (fun m hm => ?_)
    have hmk := h.apart.order_unique (.inl hm) hx
    exact hxfree (hmk ▸ hm)
  · intro m hm
    rw [Function.update_of_ne (by omega)]
    exact h.deep m hm
  · intro y m y' m' p hy hy'
    exact h.apart y m y' m' p ((hblock y m).1 hy) ((hblock y' m').1 hy')
  · intro y m hy
    exact h.within y m ((hblock y m).1 hy)
  · intro y m hy
    rcases mem_update_cons.1 hy with hy | ⟨rfl, rfl⟩
    · exact h.free_not_held y m hy
    · exact hxheld
  · intro y m hy
    cases hy
  · intro z j ht hp hj
    rcases h.marks z j ht hp hj with hm | hm | hm
    · exact .inl (mem_update_cons.2 (.inl hm))
    · exact .inr (.inl (hm.congr fun y m => (hblock y m).2))
    · exact .inl (mem_update_cons.2 (.inr hm))

/-- The merging loop, some rounds into a call on the state `s₀`: outside the
block in hand the page descriptors are those of `s₀`. -/
theorem Good.mergeLoop {s₀ : State} {i x' k' : Nat}
    (h : Good lo hi s fl H (some (x, k)) (atHand x k))
    (hleft : left + k = maxOrder + 1)
    (hx : x = mergedBase base order i) (hk : k = order + i)
    (hframe : ∀ z, ¬ (x ≤ z ∧ z < x + 2 ^ k) →
      s.pages z = s₀.pages z ∧ s.touched z = s₀.touched z)
    (hprev : ∀ i', i' < i → Matches s₀ base order i')
    (hclean : ∀ rounds, order + rounds ≤ maxOrder →
      (∀ i', i' ≤ rounds → Matches s₀ base order i') →
      s₀.touched (buddyOf (mergedBase base order rounds)
        (order + rounds)) = true)
    (hcall : Buddy.mergeLoop left k x s = some (s', x', k'))
    (hmax : k' ≤ maxOrder) :
    ∃ fl', Good lo hi s' fl' H (some (x', k')) (atHand x' k') := by
  induction left generalizing s fl x k i with
  | zero =>
      cases hcall
      omega
  | succ left ih =>
      unfold Buddy.mergeLoop at hcall
      simp only at hcall
      split at hcall
      case isTrue _ => cases hcall
      case isFalse _ =>
      split at hcall
      case isFalse _ =>
        cases hcall
        exact ⟨fl, h⟩
      case isTrue hmark =>
        obtain ⟨hp, hj⟩ := hmark
        have hbuddy : buddyOf x k = partner x k := rfl
        rw [hbuddy] at hp hj hcall
        have hpos := Nat.two_pow_pos k
        have hout : ¬ (x ≤ partner x k ∧ partner x k < x + 2 ^ k) := by
          rcases partner_cases x k with hc | hc
          · omega
          · omega
        obtain ⟨hpage, htouched⟩ := hframe (partner x k) hout
        have hmatch : Matches s₀ base order i := by
          unfold Matches
          rw [← hx, ← hk, hbuddy]
          exact ⟨hpage ▸ hp, hpage ▸ hj⟩
        have hall : ∀ i', i' ≤ i → Matches s₀ base order i' := by
          intro i' hi'
          rcases Nat.lt_or_eq_of_le hi' with hlt | rfl
          · exact hprev i' hlt
          · exact hmatch
        have ht : s.touched (partner x k) = true := by
          have ht := hclean i (by omega) hall
          rw [← hx, ← hk, hbuddy, ← htouched] at ht
          exact ht
        have hfree := h.buddy_free ht hp hj
        obtain ⟨pre, suf, hfl⟩ := List.append_of_mem hfree
        have hmerge := h.merge hfree hfl rfl
        have hmin : (if x < partner x k then x else partner x k)
            = min x (partner x k) := by
          split
          case isTrue hlt => exact (min_eq_left (by omega)).symm
          case isFalse hge => exact (min_eq_right (by omega)).symm
        rw [hmin] at hcall
        refine ih hmerge (i := i + 1) (by omega) ?_ (by omega) ?_ ?_ hcall
        · show _ = if _ < _ then _ else _
          rw [← hx, ← hk, hbuddy, hmin]
        · intro z hz
          have hne : z ≠ partner x k ∧ ¬ (x ≤ z ∧ z < x + 2 ^ k) := by
            rw [Nat.pow_succ] at hz
            rcases partner_cases x k with hc | hc
            · omega
            · omega
          obtain ⟨hpz, htz⟩ := hframe z hne.2
          simp only [State.setPgProperty, State.setPage,
            Function.update_of_ne hne.1]
          exact ⟨hpz, htz⟩
        · intro i' hi'
          exact hall i' (by omega)

-- ====================================================== the requests

theorem orderLoop_eq (hlo : order ≤ Nat.clog 2 n)
    (hhi : Nat.clog 2 n ≤ order + k) : orderLoop n k order = Nat.clog 2 n := by
  induction k generalizing order with
  | zero => exact le_antisymm hlo hhi
  | succ k ih =>
      unfold orderLoop
      split
      case isTrue hlt =>
        refine ih ?_ (by omega)
        by_contra hcon
        have hle : Nat.clog 2 n ≤ order := by omega
        have := (Nat.clog_le_iff_le_pow (by omega)).1 hle
        omega
      case isFalse hge =>
        have hle : Nat.clog 2 n ≤ order :=
          (Nat.clog_le_iff_le_pow (by omega)).2 (by omega)
        omega

/-- The order of a request is the least whose blocks are large enough. -/
theorem orderOf_eq (n : Nat) : orderOf n = Nat.clog 2 n := by
  refine orderLoop_eq (Nat.zero_le _) ?_
  rw [Nat.zero_add, Nat.clog_le_iff_le_pow (by omega)]
  exact (Nat.lt_two_pow_self).le

theorem orderOf_le_maxOrder (h : n ≤ 1024) : orderOf n ≤ maxOrder := by
  rw [orderOf_eq, Nat.clog_le_iff_le_pow (by omega)]
  exact h

theorem memmapOrder_le (n order : Nat) : memmapOrder n order ≤ order := by
  induction order with
  | zero => exact le_refl 0
  | succ k ih =>
      unfold memmapOrder
      split
      case isTrue _ => omega
      case isFalse _ => exact le_refl _

theorem two_pow_memmapOrder_le (h : 0 < n) (order : Nat) :
    2 ^ memmapOrder n order ≤ n := by
  induction order with
  | zero => exact h
  | succ k ih =>
      unfold memmapOrder
      split
      case isTrue _ => exact ih
      case isFalse hge => omega

-- ========================================================= the start

/-- `buddy_init` makes the lists empty and leaves the pages alone. -/
theorem buddyInit_fold (l : List Nat) (s s' : State)
    (hs : s' = l.foldl (fun s i => { s with
      links := listInit s.links (.freeList i)
      nrFree := Function.update s.nrFree i 0 }) s) :
    s'.pages = s.pages ∧ s'.touched = s.touched
      ∧ ∀ k, k ∈ l ∨ IsRing s.links (.freeList k) [] →
        IsRing s'.links (.freeList k) [] := by
  induction l generalizing s with
  | nil =>
      subst hs
      exact ⟨rfl, rfl, fun k hk => hk.elim (fun h => by simp at h) id⟩
  | cons i l ih =>
      obtain ⟨hp, ht, hring⟩ := ih _ hs
      refine ⟨hp, ht, fun k hk => hring k ?_⟩
      by_cases hki : k = i
      · subst hki
        exact .inr (listInit_ring _ _)
      · rcases hk with hk | hk
        · rcases List.mem_cons.1 hk with hk | hk
          · exact absurd hk hki
          · exact .inl hk
        · refine .inr (listInit_ring_of_notMem hk ?_)
          simp [Ne.symm hki]

/-- After `buddy_init` and `buddy_init_memmap` there is one free block. -/
theorem Handed.good (h : Handed base n w) :
    Good base (base + 2 ^ memmapOrder n maxOrder) w.state
      (wholeRegion base n) (fun _ _ => False) none settled := by
  obtain ⟨s, hclean, hcall⟩ := h.init
  unfold wholeRegion
  unfold buddyInitMemmap at hcall
  split at hcall
  case isFalse _ => cases hcall
  case isTrue hpos =>
    have hw := (Option.some.inj hcall).symm
    have hk := memmapOrder_le n maxOrder
    have hfit := two_pow_memmapOrder_le hpos maxOrder
    generalize memmapOrder n maxOrder = k at hw hk hfit ⊢
    obtain ⟨-, ht, hring⟩ := buddyInit_fold _ s (buddyInit s) rfl
    have hempty : FreeRings (buddyInit s).links (fun _ => []) := by
      constructor
      · intro i hi
        refine hring i (.inl (List.mem_range.2 ?_))
        exact Nat.lt_succ_of_le hi
      · intro i _ j _ hij c hc hcj
        simp only [List.map_nil, List.mem_singleton] at hc hcj
        rw [hc] at hcj
        exact hij (Entry.freeList.inj hcj)
    have hblock : ∀ x m, Block (Function.update (fun _ => []) k [base])
        (fun _ _ => False) none x m → x = base ∧ m = k := by
      intro x m hx
      rcases hx with hx | hx | hx
      · by_cases hm : m = k
        · subst hm
          rw [Function.update_self] at hx
          exact ⟨List.mem_singleton.1 hx, rfl⟩
        · rw [Function.update_of_ne hm] at hx
          simp at hx
      · exact hx.elim
      · cases hx
    rw [hw]
    refine
      { rings := ?_, deep := ?_, apart := ?_, within := ?_,
        free_not_held := fun _ _ _ hf => hf, floating := ?_,
        clear := fun _ _ hf => hf.elim, marks := ?_ }
    · exact hempty.add (x := base) hk (fun m hm => by simp at hm)
    · intro m hm
      rw [Function.update_of_ne (by omega)]
    · intro x m y m' p hx hy _ _ _ _
      obtain ⟨rfl, rfl⟩ := hblock x m hx
      obtain ⟨rfl, rfl⟩ := hblock y m' hy
      exact ⟨rfl, rfl⟩
    · intro x m hx
      obtain ⟨rfl, rfl⟩ := hblock x m hx
      omega
    · intro x m hx
      cases hx
    · intro z j htz _ hj
      by_cases hz : z = base
      · subst hz
        have hmod : 2 ^ k % 2 ^ 32 = 2 ^ k :=
          Nat.mod_eq_of_lt (Nat.pow_lt_pow_right (by omega)
            (by unfold maxOrder at hk; omega))
        simp only [State.setPgProperty, State.setProperty, State.setPage,
          Function.update_self, hmod] at hj
        have hkj := Nat.pow_right_injective (le_refl 2) hj
        subst hkj
        exact .inl (by rw [Function.update_self]; exact List.mem_singleton_self _)
      · simp only [State.setPgProperty, State.setProperty, State.setPage,
          Function.update_of_ne hz, ht, hclean] at htz
        cases htz

-- ========================================================== the runs

/-- The blocks handed out. -/
def Held (w : World) (x k : Nat) : Prop :=
  ∃ n, w.held x = some n ∧ k = orderOf n

/-- What holds between two calls. -/
structure Inv (lo hi : Nat) (w : World) : Prop where
  good : ∃ fl, Good lo hi w.state fl (Held w) none settled
  small : ∀ p n, w.held p = some n → n ≤ 1024

theorem Start.handed (h : Start base n w) : Handed base n w := by
  obtain ⟨s, hclean, -, hcall⟩ := h.init
  exact ⟨⟨s, hclean, hcall⟩, h.held⟩

theorem Handed.le (h : Handed base n w) : 2 ^ memmapOrder n maxOrder ≤ n := by
  obtain ⟨s, -, hcall⟩ := h.init
  unfold buddyInitMemmap at hcall
  split at hcall
  case isTrue hpos => exact two_pow_memmapOrder_le hpos maxOrder
  case isFalse _ => cases hcall

theorem Handed.inv (h : Handed base n w) :
    Inv base (base + 2 ^ memmapOrder n maxOrder) w := by
  have hH : (fun _ _ => False) = Held w := by
    funext x k
    unfold Held
    simp [h.held]
  exact ⟨⟨_, hH ▸ h.good⟩, fun p m hp => by rw [h.held p] at hp; cases hp⟩

/-- What `buddy_alloc_pages` returns was not handed out, and is one of the
blocks from then on. -/
theorem Inv.alloc (h : Inv lo hi w) (hmax : n ≤ 1024) {r : Option Nat}
    (hcall : buddyAllocPages n w.state = some (r, s')) :
    Inv lo hi { state := s', held := hold w.held n r }
      ∧ ∀ p, r = some p → w.held p = none := by
  obtain ⟨⟨fl, hgood⟩, hsmall⟩ := h
  unfold buddyAllocPages at hcall
  simp only at hcall
  split at hcall
  case isTrue hlt =>
    have hle := orderOf_le_maxOrder hmax
    omega
  case isFalse hle =>
    rcases hgood.allocLoop (le_refl _) (by omega) hcall with
      ⟨rfl, rfl⟩ | ⟨p, rfl, hp⟩
    · exact ⟨⟨⟨fl, hgood⟩, hsmall⟩, fun p hp => by cases hp⟩
    · have hfree : w.held p = none := by
        obtain ⟨hno, -⟩ := hp (fun y m => Held w y m ∨ (y = p ∧ m = orderOf n))
          (fun y m => Iff.rfl)
        cases hheld : w.held p with
        | none => rfl
        | some n' => exact absurd ⟨_, n', hheld, rfl⟩ hno
      refine ⟨⟨(hp _ fun y m => ?_).2, ?_⟩, fun q hq => ?_⟩
      · show (∃ n', Function.update w.held p (some n) y = some n'
            ∧ m = orderOf n') ↔ _
        by_cases hy : y = p
        · subst hy
          simp [Held, hfree]
        · simp [Held, hy]
      · intro q n' hq
        have hq' : Function.update w.held p (some n) q = some n' := hq
        by_cases hqp : q = p
        · rw [hqp, Function.update_self] at hq'
          cases hq'
          exact hmax
        · rw [Function.update_of_ne hqp] at hq'
          exact hsmall q n' hq'
      · cases hq
        exact hfree

theorem Inv.free (h : Inv lo hi w) (hheld : w.held base = some n)
    (hclean : MeetsTouched w.state base n)
    (hcall : buddyFreePages base n w.state = some s') :
    Inv lo hi
      { state := s', held := Function.update w.held base none } := by
  obtain ⟨⟨fl, hgood⟩, hsmall⟩ := h
  have hk := orderOf_le_maxOrder (hsmall base n hheld)
  have hbase : Held w base (orderOf n) := ⟨n, hheld, rfl⟩
  have hH : ∀ y m, Held
      { state := s', held := Function.update w.held base none } y m
        ↔ Held w y m ∧ ¬ (y = base ∧ m = orderOf n) := by
    intro y m
    by_cases hy : y = base
    · subst hy
      simp [Held, hheld]
    · simp [Held, hy]
  have hpos := Nat.two_pow_pos (orderOf n)
  have hback := hgood.takeBack hk hbase hH rfl
  have hclear := hgood.clear base _ hbase
  unfold buddyFreePages at hcall
  rw [hclear] at hcall
  simp only [Bool.false_eq_true, if_false] at hcall
  split at hcall
  case h_1 _ => cases hcall
  case h_2 sm base' order' hloop =>
    split at hcall
    case isTrue _ => cases hcall
    case isFalse hle =>
      cases hcall
      have hframe : ∀ z, ¬ (base ≤ z ∧ z < base + 2 ^ orderOf n) →
          ((w.state.setProperty base (2 ^ orderOf n)).setPgProperty base
            true).pages z = w.state.pages z
          ∧ ((w.state.setProperty base (2 ^ orderOf n)).setPgProperty base
            true).touched z = w.state.touched z := by
        intro z hz
        have hne : z ≠ base := by
          intro heq
          subst heq
          exact hz ⟨le_refl _, by omega⟩
        simp [State.setPgProperty, State.setProperty, State.setPage, hne]
      obtain ⟨fl', hmerged⟩ := hback.mergeLoop (i := 0)
        (by omega) rfl rfl hframe (fun i hi => by omega) hclean hloop
        (by omega)
      refine ⟨⟨_, hmerged.release (by omega)⟩, ?_⟩
      intro q n' hq
      have hq' : Function.update w.held base none q = some n' := hq
      by_cases hqb : q = base
      · rw [hqb, Function.update_self] at hq'
        cases hq'
      · rw [Function.update_of_ne hqb] at hq'
        exact hsmall q n' hq'

theorem CleanStep.inv (h : CleanStep w lb w') (hinv : Inv lo hi w) :
    Inv lo hi w' := by
  obtain ⟨hstep, hclean⟩ := h
  cases hstep with
  | alloc hpos hmax hcall => exact (hinv.alloc hmax hcall).1
  | free hheld hcall => exact hinv.free hheld hclean hcall

/-- Blocks handed out lie in the region. -/
theorem Inv.held_within (h : Inv lo hi w) (hx : w.held x = some n) :
    lo ≤ x ∧ x + 2 ^ Nat.clog 2 n ≤ hi := by
  obtain ⟨fl, hgood⟩ := h.good
  rw [← orderOf_eq]
  exact hgood.within x _ (.inr (.inl ⟨n, hx, rfl⟩))

/-- Blocks handed out do not overlap. -/
theorem Inv.held_apart (h : Inv lo hi w) (hx : w.held x = some n)
    (hy : w.held y = some m) (hne : x ≠ y) :
    x + 2 ^ Nat.clog 2 n ≤ y ∨ y + 2 ^ Nat.clog 2 m ≤ x := by
  obtain ⟨fl, hgood⟩ := h.good
  by_contra hcon
  rw [← orderOf_eq, ← orderOf_eq] at hcon
  have hposx := Nat.two_pow_pos (orderOf n)
  have hposy := Nat.two_pow_pos (orderOf m)
  exact hne (hgood.apart x _ y _ (max x y) (.inr (.inl ⟨n, hx, rfl⟩))
    (.inr (.inl ⟨m, hy, rfl⟩)) (by omega) (by omega) (by omega) (by omega)).1

-- =================================================== marks left over

/-- Every mark was set by the allocator. -/
def Marked (s : State) : Prop :=
  ∀ p, (s.pages p).pgProperty = true → s.touched p = true

theorem Marked.setPgProperty (h : Marked s) (p : Nat) (v : Bool) :
    Marked (s.setPgProperty p v) := by
  intro q hq
  by_cases hqp : q = p
  · subst hqp
    simp [State.setPgProperty]
  · simp only [State.setPgProperty, State.setPage,
      Function.update_of_ne hqp] at hq ⊢
    exact h q hq

theorem Marked.setProperty (h : Marked s) (p n : Nat) :
    Marked (s.setProperty p n) := by
  intro q hq
  by_cases hqp : q = p
  · subst hqp
    simp only [State.setProperty, State.setPage, Function.update_self] at hq
    exact h q hq
  · simp only [State.setProperty, State.setPage,
      Function.update_of_ne hqp] at hq
    exact h q hq

theorem Marked.splitLoop (h : Marked s) :
    Marked (Buddy.splitLoop order x current s) := by
  induction current generalizing s with
  | zero => exact h
  | succ k ih =>
      unfold Buddy.splitLoop
      split
      case isTrue _ => exact ih ((h.setProperty _ _).setPgProperty _ _)
      case isFalse _ => exact h

theorem Marked.allocLoop (h : Marked s) {r : Option Nat}
    (hcall : Buddy.allocLoop order n left current s = some (r, s')) :
    Marked s' := by
  induction left generalizing current with
  | zero =>
      cases hcall
      exact h
  | succ left ih =>
      unfold Buddy.allocLoop at hcall
      split at hcall
      case isTrue _ => exact ih hcall
      case isFalse _ =>
        simp only at hcall
        split at hcall
        case h_1 _ => cases hcall
        case h_2 page _ =>
          cases hcall
          have htaken : Marked
              { s with
                links := listDel s.links
                  (listNext s.links (.freeList current))
                nrFree := Function.update s.nrFree current
                  (s.nrFree current - 1) } := h
          exact (htaken.splitLoop.setPgProperty page false).setProperty page n

theorem Marked.mergeLoop (h : Marked s) {x' k' : Nat}
    (hcall : Buddy.mergeLoop left k x s = some (s', x', k')) : Marked s' := by
  induction left generalizing s k x with
  | zero =>
      cases hcall
      exact h
  | succ left ih =>
      unfold Buddy.mergeLoop at hcall
      simp only at hcall
      split at hcall
      case isTrue _ => cases hcall
      case isFalse _ =>
        split at hcall
        case isFalse _ =>
          cases hcall
          exact h
        case isTrue _ =>
          have hdel : Marked
              { s with links := listDel s.links (.pageLink (buddyOf x k)) } := h
          exact ih (hdel.setPgProperty _ false) hcall

theorem Marked.step (h : Marked w.state) (hstep : Step w lb w') :
    Marked w'.state := by
  cases hstep with
  | alloc hpos hmax hcall =>
      unfold buddyAllocPages at hcall
      simp only at hcall
      split at hcall
      case isTrue _ =>
        cases hcall
        exact h
      case isFalse _ => exact h.allocLoop hcall
  | free hheld hcall =>
      unfold buddyFreePages at hcall
      simp only at hcall
      split at hcall
      case isTrue _ =>
        cases hcall
        exact h
      case isFalse _ =>
        split at hcall
        case h_1 _ => cases hcall
        case h_2 sm base' order' hloop =>
          split at hcall
          case isTrue _ => cases hcall
          case isFalse _ =>
            cases hcall
            have hmerged : Marked sm :=
              ((h.setProperty _ _).setPgProperty _ _).mergeLoop hloop
            exact hmerged

/-- Without marks left over from before, every step is a clean one. -/
theorem Marked.cleanStep (h : Marked w.state) (hstep : Step w lb w') :
    CleanStep w lb w' := by
  refine ⟨hstep, ?_⟩
  cases lb with
  | alloc n r => exact trivial
  | free base n =>
      intro rounds _ hall
      exact h _ (hall rounds (le_refl _)).1

theorem Marked.run {ls : List Label} (h : Marked w.state)
    (hrun : Run Step w ls w') : Run CleanStep w ls w' := by
  induction hrun with
  | nil w => exact .nil w
  | cons hstep _ ih => exact .cons (h.cleanStep hstep) (ih (h.step hstep))

/-- A region none of whose pages but the first is marked when it is handed
over leaves no marks. -/
theorem marked_of_memmap (hclear : ∀ p, p ≠ base → (s.pages p).pgProperty = false)
    (hcall : buddyInitMemmap (buddyInit s) base n = some s') : Marked s' := by
  obtain ⟨hp, ht, -⟩ := buddyInit_fold _ s (buddyInit s) rfl
  unfold buddyInitMemmap at hcall
  split at hcall
  case isFalse _ => cases hcall
  case isTrue _ =>
    cases hcall
    intro p hmark
    by_cases hpb : p = base
    · subst hpb
      simp [State.setPgProperty]
    · simp only [State.setPgProperty, State.setProperty, State.setPage,
        Function.update_of_ne hpb, hp, hclear p hpb] at hmark
      cases hmark

-- ========================================================= the claim

/-- In a run in which no block is merged with a page that was marked before
the region was handed over, a block handed out has the size asked for, lies
in the region, and overlaps no block that is allocated. -/
theorem buddy_alloc_pages_apart {w₀ : World} {ls : List Label} {p : Nat}
    (hstart : Start base n w₀) (hrun : Run CleanStep w₀ ls w)
    (hstep : Step w (.alloc m (some p)) w') :
    m ≤ 2 ^ Nat.clog 2 m
      ∧ (base ≤ p ∧ p + 2 ^ Nat.clog 2 m ≤ base + n)
      ∧ ∀ q k, w.held q = some k →
        p + 2 ^ Nat.clog 2 m ≤ q ∨ q + 2 ^ Nat.clog 2 k ≤ p := by
  have hle := hstart.handed.le
  have hinv := hrun.invariant (fun h hs => CleanStep.inv hs h)
    hstart.handed.inv
  cases hstep with
  | alloc hpos hmax hcall =>
      obtain ⟨hinv', hfresh⟩ := hinv.alloc hmax hcall
      have hheld : hold w.held m (some p) p = some m := by
        show Function.update w.held p (some m) p = some m
        rw [Function.update_self]
      have hin := hinv'.held_within hheld
      refine ⟨Nat.le_pow_clog (by omega) m, ⟨hin.1, by omega⟩, ?_⟩
      intro q k hq
      have hqp : q ≠ p := by
        intro heq
        rw [heq, hfresh p rfl] at hq
        cases hq
      have hq' : hold w.held m (some p) q = some k := by
        show Function.update w.held p (some m) q = some k
        rw [Function.update_of_ne hqp]
        exact hq
      exact hinv'.held_apart hheld hq' (Ne.symm hqp)

/-- Page descriptors of which the one given is marked, as a free page. -/
def fourPages (stale : Nat) : State where
  pages p := { pgProperty := p == stale, property := 1 }
  links := { prev := id, next := id }
  nrFree _ := 0
  npage := 16
  touched _ := false

/-- Four pages of these, handed over. -/
def fourPagesWorld (stale : Nat) : World where
  state := (buddyInitMemmap (buddyInit (fourPages stale)) 1 4).getD
    (fourPages stale)
  held _ := none

theorem fourPagesWorld_start {stale : Nat} (h : 1 ≤ stale ∧ stale < 5) :
    Start 1 4 (fourPagesWorld stale) := by
  refine ⟨⟨fourPages stale, fun _ => rfl, fun p hp => ?_, rfl⟩, fun _ => rfl⟩
  have heq : p = stale := by simpa [fourPages] using hp
  omega

/-- The calls before the last one. -/
def fourPagesCalls : List Label :=
  [.alloc 2 (some 1), .alloc 1 (some 3), .free 3 1]

/-- A mark from before makes the allocator merge the page given back with
half of a block that is allocated. -/
theorem fourPages_overlap :
    ∃ w₀ w w' : World, Start 1 4 w₀ ∧ Run Step w₀ fourPagesCalls w
      ∧ Step w (.alloc 2 (some 2)) w' ∧ w.held 1 = some 2 := by
  have hsome : ((calls (fourPagesWorld 2) fourPagesCalls).bind
      fun w => (call w (.alloc 2 (some 2))).map
        fun _ => w.held 1).isSome = true := by decide +kernel
  have hheld : (calls (fourPagesWorld 2) fourPagesCalls).map
      (fun w => w.held 1) = some (some 2) := by decide +kernel
  obtain ⟨_, hw⟩ := Option.isSome_iff_exists.1 hsome
  obtain ⟨w, hrun, hmap⟩ := Option.bind_eq_some_iff.1 hw
  obtain ⟨w', hstep, -⟩ := Option.map_eq_some_iff.1 hmap
  rw [hrun] at hheld
  exact ⟨_, w, w', fourPagesWorld_start (by omega), calls_run hrun,
    call_step hstep, Option.some.inj hheld⟩

/-- With marks from before, blocks handed out may overlap. -/
theorem buddy_alloc_pages_overlap :
    ¬ ∀ (base n : Nat) (w₀ w w' : World) (ls : List Label) (m p : Nat),
      Start base n w₀ → Run Step w₀ ls w → Step w (.alloc m (some p)) w' →
      ∀ q k, w.held q = some k →
        p + 2 ^ Nat.clog 2 m ≤ q ∨ q + 2 ^ Nat.clog 2 k ≤ p := by
  intro hall
  obtain ⟨w₀, w, w', hstart, hrun, hstep, hheld⟩ := fourPages_overlap
  have hapart := hall 1 4 w₀ w w' fourPagesCalls 2 2 hstart hrun hstep 1 2 hheld
  have hsize : 2 ≤ 2 ^ Nat.clog 2 2 := Nat.le_pow_clog (by omega) 2
  omega

/-- The same calls, with no mark from before on the page that was merged. -/
theorem buddy_alloc_pages_apart_four :
    ∃ w₀ w w' : World, Start 1 4 w₀ ∧ Run CleanStep w₀ fourPagesCalls w
      ∧ Step w (.alloc 1 (some 3)) w'
      ∧ ∀ q k, w.held q = some k → 3 + 1 ≤ q ∨ q + 2 ^ Nat.clog 2 k ≤ 3 := by
  have hsome : ((calls (fourPagesWorld 1) fourPagesCalls).bind
      fun w => (call w (.alloc 1 (some 3))).map
        fun _ => w.held 1).isSome = true := by decide +kernel
  obtain ⟨_, hw⟩ := Option.isSome_iff_exists.1 hsome
  obtain ⟨w, hrun, hmap⟩ := Option.bind_eq_some_iff.1 hw
  obtain ⟨w', hstep, -⟩ := Option.map_eq_some_iff.1 hmap
  have hstart : Start 1 4 (fourPagesWorld 1) := fourPagesWorld_start (by omega)
  have hmarked : Marked (fourPagesWorld 1).state := by
    have hcall : buddyInitMemmap (buddyInit (fourPages 1)) 1 4
        = some (fourPagesWorld 1).state := rfl
    refine marked_of_memmap (fun p hp => ?_) hcall
    simpa [fourPages] using hp
  have hclean := hmarked.run (calls_run hrun)
  have hapart := buddy_alloc_pages_apart hstart hclean (call_step hstep)
  refine ⟨_, w, w', hstart, hclean, call_step hstep, ?_⟩
  simpa using hapart.2.2

end Ucore.Buddy
