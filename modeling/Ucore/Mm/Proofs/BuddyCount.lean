/-
The counters and headers of the buddy allocator.

As long as no block is merged, each step keeps the counter of every free list
at its length, and the pages on the lists, weighted by their orders, together
with the pages of the requests at the size of the region (`Tally`). A merge
does not: it takes the buddy off its list and leaves the counter of that list
and the `property` of the block as they are.
-/
import Ucore.Mm.Proofs.BuddyPmm
import Mathlib.Algebra.BigOperators.Finprod
import Mathlib.Algebra.BigOperators.Group.Finset.Basic

namespace Ucore.Buddy

open Ring Dyadic

variable {lo hi x k m n base order left current W : Nat} {s s' : State}
  {fl fl' : Nat → List Nat} {H H' : Nat → Nat → Prop} {l : List Nat}
  {w w' : World} {lb : Label} {hand : Nat → Prop}

-- ======================================================== the weight

/-- The pages on the free lists. -/
def weight (fl : Nat → List Nat) : Nat :=
  ∑ k ∈ Finset.range (maxOrder + 1), (fl k).length * 2 ^ k

theorem weight_nil : weight (fun _ => []) = 0 := by
  unfold weight
  exact Finset.sum_eq_zero fun _ _ => by simp

theorem weight_update (fl : Nat → List Nat) (hk : k ≤ maxOrder)
    (l : List Nat) :
    weight (Function.update fl k l) + (fl k).length * 2 ^ k
      = weight fl + l.length * 2 ^ k := by
  have hmem : k ∈ Finset.range (maxOrder + 1) :=
    Finset.mem_range.2 (Nat.lt_succ_of_le hk)
  have hold := Finset.add_sum_erase _ (fun m => (fl m).length * 2 ^ m) hmem
  have hnew := Finset.add_sum_erase _
    (fun m => (Function.update fl k l m).length * 2 ^ m) hmem
  have hrest : ∑ m ∈ (Finset.range (maxOrder + 1)).erase k,
      (Function.update fl k l m).length * 2 ^ m
        = ∑ m ∈ (Finset.range (maxOrder + 1)).erase k,
          (fl m).length * 2 ^ m := by
    refine Finset.sum_congr rfl fun m hm => ?_
    rw [Function.update_of_ne (Finset.ne_of_mem_erase hm)]
  simp only [Function.update_self] at hnew
  unfold weight
  omega

theorem weight_cut (hk : k ≤ maxOrder) (hl : fl k = x :: l) :
    weight (Function.update fl k l) + 2 ^ k = weight fl := by
  have hup := weight_update fl hk l
  rw [hl, List.length_cons, Nat.succ_mul] at hup
  omega

theorem weight_cons (hk : k ≤ maxOrder) :
    weight (Function.update fl k (x :: fl k)) = weight fl + 2 ^ k := by
  have hup := weight_update fl hk (x :: fl k)
  rw [List.length_cons, Nat.succ_mul] at hup
  omega

/-- A list is no longer than all lists weigh. -/
theorem length_le_weight (fl : Nat → List Nat) (hk : k ≤ maxOrder) :
    (fl k).length ≤ weight fl := by
  have hle : (fl k).length * 2 ^ k ≤ weight fl :=
    Finset.single_le_sum (f := fun k => (fl k).length * 2 ^ k)
      (fun _ _ => Nat.zero_le _) (Finset.mem_range.2 (Nat.lt_succ_of_le hk))
  exact (Nat.le_mul_of_pos_right _ (Nat.two_pow_pos k)).trans hle

-- ====================================================== the counters

/-- Each counter is the length of its list. -/
def Counted (s : State) (fl : Nat → List Nat) : Prop :=
  ∀ k, k ≤ maxOrder → s.nrFree k = BitVec.ofNat 32 (fl k).length

theorem Counted.takeFree (h : Counted s fl) (hl : fl k = x :: l) :
    Counted (s.takeFree k x) (Function.update fl k l) := by
  intro m hm
  by_cases hmk : m = k
  · subst hmk
    have hcount := h m hm
    rw [hl, List.length_cons, BitVec.ofNat_add] at hcount
    simp only [State.takeFree, Function.update_self, hcount]
    exact BitVec.add_sub_cancel _ _
  · simp only [State.takeFree, Function.update_of_ne hmk]
    exact h m hm

theorem Counted.addFree (h : Counted s fl) (k x : Nat) :
    Counted (s.addFree k x) (Function.update fl k (x :: fl k)) := by
  intro m hm
  by_cases hmk : m = k
  · subst hmk
    simp [State.addFree, h m hm, BitVec.ofNat_add]
  · simp only [State.addFree, Function.update_of_ne hmk]
    exact h m hm

-- ======================================================= the headers

/-- The pages that are marked head a block of their list, the ones in hand
apart. -/
structure Flagged (s : State) (fl : Nat → List Nat) (hand : Nat → Prop) :
    Prop where
  listed : ∀ k x, x ∈ fl k →
    (s.pages x).property = 2 ^ k ∧ (s.pages x).pgProperty = true
  only : ∀ p, (s.pages p).pgProperty = true → (∃ k, p ∈ fl k) ∨ hand p

/-- No page is in hand. -/
def noneInHand (_ : Nat) : Prop := False

theorem Flagged.takeFree (h : Flagged s fl noneInHand) (hk : k ≤ maxOrder)
    (hl : fl k = x :: l) (hg : Good lo hi s fl H none settled) :
    Flagged (s.takeFree k x) (Function.update fl k l) (· = x) := by
  have hcut : fl k = [] ++ x :: l := hl
  have hmem : ∀ y m, y ∈ Function.update fl k l m
      ↔ y ∈ fl m ∧ ¬ (y = x ∧ m = k) := fun y m =>
    mem_update_cut hcut (hg.nodup hk)
  refine ⟨fun m y hy => h.listed m y ((hmem y m).1 hy).1, fun p hp => ?_⟩
  rcases h.only p hp with ⟨m, hm⟩ | hp
  · by_cases hpx : p = x
    · exact .inr hpx
    · exact .inl ⟨m, (hmem p m).2 ⟨hm, fun h => hpx h.1⟩⟩
  · exact hp.elim

/-- Marking a page as a free block and putting it on the list. -/
theorem Flagged.putFree (h : Flagged s fl hand) (hk : k ≤ maxOrder)
    (hx : ∀ m, x ∉ fl m) :
    Flagged (((s.setProperty x (2 ^ k)).setPgProperty x true).addFree k x)
      (Function.update fl k (x :: fl k)) hand := by
  have hmod : 2 ^ k % 2 ^ 32 = 2 ^ k :=
    Nat.mod_eq_of_lt (Nat.pow_lt_pow_right (by omega)
      (by unfold maxOrder at hk; omega))
  refine ⟨fun m y hy => ?_, fun p hp => ?_⟩
  · rcases mem_update_cons.1 hy with hy | ⟨rfl, rfl⟩
    · have hyx : y ≠ x := fun heq => hx m (heq ▸ hy)
      simpa [State.addFree, State.setPgProperty, State.setProperty,
        State.setPage, hyx] using h.listed m y hy
    · simp only [State.addFree, State.setPgProperty, State.setProperty,
        State.setPage, Function.update_self, hmod]
      exact ⟨trivial, trivial⟩
  · by_cases hpx : p = x
    · exact .inl ⟨k, mem_update_cons.2 (.inr ⟨hpx, rfl⟩)⟩
    · simp only [State.addFree, State.setPgProperty, State.setProperty,
        State.setPage, Function.update_of_ne hpx] at hp
      rcases h.only p hp with ⟨m, hm⟩ | hp
      · exact .inl ⟨m, mem_update_cons.2 (.inl hm)⟩
      · exact .inr hp

/-- Clearing the mark of the page in hand. -/
theorem Flagged.handOut (h : Flagged s fl (· = x)) (hx : ∀ m, x ∉ fl m) (n : Nat) :
    Flagged ((s.setPgProperty x false).setProperty x n) fl noneInHand := by
  refine ⟨fun m y hy => ?_, fun p hp => ?_⟩
  · have hyx : y ≠ x := fun heq => hx m (heq ▸ hy)
    simpa [State.setPgProperty, State.setProperty, State.setPage, hyx]
      using h.listed m y hy
  · by_cases hpx : p = x
    · subst hpx
      simp [State.setPgProperty, State.setProperty, State.setPage] at hp
    · simp only [State.setPgProperty, State.setProperty, State.setPage,
        Function.update_of_ne hpx] at hp
      exact .inl ((h.only p hp).resolve_right hpx)

-- ========================================================= the calls

/-- What the splitting loop keeps, the block `x` in hand: `W` pages are free or
in hand. -/
structure Splitting (lo hi : Nat) (H : Nat → Nat → Prop) (x W : Nat)
    (marked : Prop) (s : State) (fl : Nat → List Nat) (k : Nat) : Prop where
  good : Good lo hi s fl H (some (x, k)) (fun z _ => z = x)
  counted : Counted s fl
  weight : weight fl + 2 ^ k = W
  flagged : marked → Flagged s fl (· = x)

theorem Splitting.round {marked : Prop}
    (h : Splitting lo hi H x W marked s fl (k + 1)) (hk : k ≤ maxOrder) :
    Splitting lo hi H x W marked (s.splitOff x k)
      (Function.update fl k ((x + 2 ^ k) :: fl k)) k := by
  have hweight := h.weight
  rw [Nat.pow_succ] at hweight
  refine ⟨h.good.split hk rfl, ?_, ?_, fun hm => ?_⟩
  · have hset : Counted ((s.setProperty (x + 2 ^ k) (2 ^ k)).setPgProperty
        (x + 2 ^ k) true) fl := h.counted
    exact hset.addFree k (x + 2 ^ k)
  · rw [weight_cons hk]
    omega
  · exact (h.flagged hm).putFree hk fun m hmem =>
      h.good.upper_fresh m (.inl hmem)

/-- A block in hand is on no list. -/
theorem Good.hand_notMem {exc : Nat → Nat → Prop}
    (h : Good lo hi s fl H (some (x, k)) exc) (m : Nat) : x ∉ fl m := by
  intro hm
  have hmk := h.apart.order_unique (.inl hm) (.inr (.inr rfl))
  exact (h.floating x k rfl).1 (hmk ▸ hm)

/-- `buddy_alloc_pages` takes from the lists what it returns. -/
theorem Good.alloc_count (h : Good lo hi s fl H none settled)
    (hcount : Counted s fl) {r : Option Nat}
    (hcall : buddyAllocPages n s = some (r, s')) :
    (r = none ∧ s' = s) ∨ ∃ p fl', r = some p ∧ ¬ (∃ m, H p m)
      ∧ (∀ H' : Nat → Nat → Prop,
        (∀ y m, H' y m ↔ H y m ∨ (y = p ∧ m = orderOf n)) →
        Good lo hi s' fl' H' none settled)
      ∧ Counted s' fl' ∧ weight fl' + 2 ^ orderOf n = weight fl
      ∧ (Flagged s fl noneInHand → Flagged s' fl' noneInHand) := by
  unfold buddyAllocPages at hcall
  simp only at hcall
  split at hcall
  case isTrue _ =>
    cases hcall
    exact .inl ⟨rfl, rfl⟩
  case isFalse hle =>
    rcases allocLoop_cases h.rings (le_refl _) (by omega) hcall with
      hnone | ⟨c, x, l, hle, hmax, hfl, rfl, hs⟩
    · exact .inl hnone
    · have hx : x ∈ fl c := hfl ▸ List.mem_cons_self
      have hstart : Splitting lo hi H x (weight fl) (Flagged s fl noneInHand)
          (s.takeFree c x) (Function.update fl c l) c :=
        ⟨h.take hmax hfl, hcount.takeFree hfl, weight_cut hmax hfl,
          fun hf => hf.takeFree hmax hfl h⟩
      obtain ⟨fl', hsplit⟩ := splitLoop_rec
        (P := Splitting lo hi H x (weight fl) (Flagged s fl noneInHand))
        (fun hk hr => hr.round hk) hstart hle hmax
      refine .inr ⟨x, fl', rfl, ?_, fun H' hH => hsplit.good.handOut hH hs, ?_,
        hsplit.weight, fun hf => ?_⟩
      · intro hheld
        obtain ⟨m, hm⟩ := hheld
        have hmk := h.apart.order_unique (.inl hx) (.inr (.inl hm))
        exact h.free_not_held x c hx (hmk ▸ hm)
      · rw [hs]
        exact hsplit.counted
      · rw [hs]
        exact (hsplit.flagged hf).handOut hsplit.good.hand_notMem n

/-- `buddy_free_pages` that does not merge puts on the lists what it is given. -/
theorem Good.free_count (h : Good lo hi s fl H none settled)
    (hcount : Counted s fl) (hk : orderOf n ≤ maxOrder) (hx : H x (orderOf n))
    (hH : ∀ y m, H' y m ↔ H y m ∧ ¬ (y = x ∧ m = orderOf n))
    (hno : ¬ Matches s x (orderOf n) 0)
    (hcall : buddyFreePages x n s = some s') :
    ∃ fl', fl' = Function.update fl (orderOf n) (x :: fl (orderOf n))
      ∧ Good lo hi s' fl' H' none settled ∧ Counted s' fl'
      ∧ weight fl' = weight fl + 2 ^ orderOf n
      ∧ (Flagged s fl noneInHand → Flagged s' fl' noneInHand) := by
  have hback := h.takeBack hk hx hH rfl
  have hclear := h.clear x _ hx
  generalize hord : orderOf n = k at *
  unfold buddyFreePages at hcall
  rw [hclear, hord] at hcall
  simp only [Bool.false_eq_true, if_false] at hcall
  have hmerge : ∀ r, Buddy.mergeLoop (maxOrder + 1 - k) k x
      ((s.setProperty x (2 ^ k)).setPgProperty x true) = some r →
      r = ((s.setProperty x (2 ^ k)).setPgProperty x true, x, k) := by
    intro r hr
    obtain ⟨left, hleft⟩ : ∃ left, maxOrder + 1 - k = left + 1 :=
      ⟨maxOrder - k, by omega⟩
    rw [hleft] at hr
    unfold Buddy.mergeLoop at hr
    simp only at hr
    split at hr
    case isTrue _ => cases hr
    case isFalse _ =>
      split at hr
      case isTrue hmark =>
        have hne : buddyOf x k ≠ x := partner_ne x k
        simp only [State.setPgProperty, State.setProperty, State.setPage,
          Function.update_of_ne hne] at hmark
        exact absurd hmark hno
      case isFalse _ => exact (Option.some.inj hr).symm
  split at hcall
  case h_1 _ => cases hcall
  case h_2 sm base' order' hloop =>
    obtain ⟨hsm, hbase, horder⟩ :
        sm = (s.setProperty x (2 ^ k)).setPgProperty x true
          ∧ base' = x ∧ order' = k := by
      have heq := hmerge _ hloop
      simpa using heq
    rw [hsm, hbase, horder, if_neg (by omega)] at hcall
    cases hcall
    refine ⟨_, rfl, hback.release hk, ?_, weight_cons hk, fun hf => ?_⟩
    · have hset : Counted ((s.setProperty x (2 ^ k)).setPgProperty x true) fl :=
        hcount
      exact hset.addFree k x
    · exact hf.putFree hk hback.hand_notMem

-- ========================================================== the runs

/-- What holds between two calls of a run without merges, of the free lists `fl`
of a region of `2 ^ m` pages. -/
structure Tally (base m : Nat) (w : World) (fl : Nat → List Nat) : Prop where
  good : Good base (base + 2 ^ m) w.state fl (Held w) none settled
  counted : Counted w.state fl
  small : ∀ p n, w.held p = some n → n ≤ 1024
  weight : weight fl
    + ∑ p ∈ Finset.range (base + 2 ^ m), heldSize w.held p = 2 ^ m

/-- The pages of the requests when one is added. -/
theorem sum_heldSize_update (held : Nat → Option Nat) {p W : Nat} (hp : p < W)
    (r : Option Nat) :
    ∑ q ∈ Finset.range W, heldSize (Function.update held p r) q
        + heldSize held p
      = ∑ q ∈ Finset.range W, heldSize held q
        + heldSize (Function.update held p r) p := by
  have hmem : p ∈ Finset.range W := Finset.mem_range.2 hp
  have hold := Finset.add_sum_erase _ (heldSize held) hmem
  have hnew := Finset.add_sum_erase _
    (heldSize (Function.update held p r)) hmem
  have hrest : ∑ q ∈ (Finset.range W).erase p,
      heldSize (Function.update held p r) q
        = ∑ q ∈ (Finset.range W).erase p, heldSize held q := by
    refine Finset.sum_congr rfl fun q hq => ?_
    unfold heldSize
    rw [Function.update_of_ne (Finset.ne_of_mem_erase hq)]
  omega

/-- One step without a merge. -/
theorem Tally.step (h : Tally base m w fl) (hno : NoMerge w lb)
    (hstep : Step w lb w') :
    ∃ fl', Tally base m w' fl'
      ∧ (Flagged w.state fl noneInHand → Flagged w'.state fl' noneInHand)
      ∧ (w'.held = w.held ∧ fl' = fl ∨ (∃ p, w'.held p ≠ none)
        ∨ ∃ x n, lb = .free x n ∧ w.held x = some n
          ∧ fl' = Function.update fl (orderOf n) (x :: fl (orderOf n))) := by
  cases hstep with
  | @alloc n r s hpos hmax hcall =>
      rcases h.good.alloc_count h.counted hcall with
        ⟨rfl, rfl⟩ | ⟨p, fl', rfl, hnew, hgood, hcount, hweight, hflag⟩
      · exact ⟨fl, h, id, .inl ⟨rfl, rfl⟩⟩
      · have hfree : w.held p = none := by
          cases hheld : w.held p with
          | none => rfl
          | some n' => exact absurd ⟨_, n', hheld, rfl⟩ hnew
        have hH : ∀ y m, Held { state := s, held := hold w.held n (some p) } y m
            ↔ Held w y m ∨ (y = p ∧ m = orderOf n) := by
          intro y m
          show (∃ n', Function.update w.held p (some n) y = some n'
            ∧ m = orderOf n') ↔ _
          by_cases hy : y = p
          · subst hy
            simp [Held, hfree]
          · simp [Held, hy]
        have hg := hgood _ hH
        have hin := hg.within p (orderOf n)
          (.inr (.inl ((hH p _).2 (.inr ⟨rfl, rfl⟩))))
        have hpos := Nat.two_pow_pos (orderOf n)
        have hsum := sum_heldSize_update w.held
          (by omega : p < base + 2 ^ m) (some n)
        have hnone : heldSize w.held p = 0 := by
          unfold heldSize
          rw [hfree]
        have hsome : heldSize (Function.update w.held p (some n)) p
            = 2 ^ orderOf n := by
          unfold heldSize
          rw [Function.update_self, orderOf_eq]
        have hold := h.weight
        refine ⟨fl', ⟨hg, hcount, ?_, ?_⟩, hflag, .inr (.inl ⟨p, ?_⟩)⟩
        · intro q n' hq
          have hq' : Function.update w.held p (some n) q = some n' := hq
          by_cases hqp : q = p
          · rw [hqp, Function.update_self] at hq'
            cases hq'
            exact hmax
          · rw [Function.update_of_ne hqp] at hq'
            exact h.small q n' hq'
        · show Buddy.weight fl' + ∑ q ∈ _, heldSize
            (Function.update w.held p (some n)) q = _
          omega
        · show Function.update w.held p (some n) p ≠ none
          rw [Function.update_self]
          exact Option.some_ne_none n
  | @free x n s hheld hcall =>
      have hk := orderOf_le_maxOrder (h.small x n hheld)
      have hH : ∀ y m, Held
          { state := s, held := Function.update w.held x none } y m
            ↔ Held w y m ∧ ¬ (y = x ∧ m = orderOf n) := by
        intro y m
        by_cases hy : y = x
        · subst hy
          simp [Held, hheld]
        · simp [Held, hy]
      obtain ⟨fl', hfl, hgood, hcount, hweight, hflag⟩ :=
        h.good.free_count h.counted hk ⟨n, hheld, rfl⟩ hH hno hcall
      have hin := h.good.within x (orderOf n)
        (.inr (.inl ⟨n, hheld, rfl⟩))
      have hpos := Nat.two_pow_pos (orderOf n)
      have hsum := sum_heldSize_update w.held
        (by omega : x < base + 2 ^ m) none
      have hnone : heldSize (Function.update w.held x none) x = 0 := by
        unfold heldSize
        rw [Function.update_self]
      have hsome : heldSize w.held x = 2 ^ orderOf n := by
        unfold heldSize
        rw [hheld, orderOf_eq]
      have hold := h.weight
      refine ⟨fl', ⟨hgood, hcount, ?_, ?_⟩, hflag,
        .inr (.inr ⟨x, n, rfl, hheld, hfl⟩)⟩
      · intro q n' hq
        have hq' : Function.update w.held x none q = some n' := hq
        by_cases hqx : q = x
        · rw [hqx, Function.update_self] at hq'
          cases hq'
        · rw [Function.update_of_ne hqx] at hq'
          exact h.small q n' hq'
      · show Buddy.weight fl' + ∑ q ∈ _, heldSize
          (Function.update w.held x none) q = _
        omega

-- ========================================================= the start

theorem buddyInit_nrFree (l : List Nat) (s s' : State)
    (hs : s' = l.foldl (fun s i => { s with
      links := listInit s.links (.freeList i)
      nrFree := Function.update s.nrFree i 0 }) s)
    (hk : k ∈ l ∨ s.nrFree k = 0) : s'.nrFree k = 0 := by
  induction l generalizing s with
  | nil =>
      subst hs
      exact hk.resolve_left (List.not_mem_nil)
  | cons i l ih =>
      refine ih _ hs ?_
      by_cases hki : k = i
      · subst hki
        right
        simp
      · rcases hk with hk | hk
        · exact .inl ((List.mem_cons.1 hk).resolve_left hki)
        · right
          simp [hki, hk]

theorem wholeRegion_weight (base n : Nat) :
    weight (wholeRegion base n) = 2 ^ memmapOrder n maxOrder := by
  have hup := weight_update (fun _ => []) (memmapOrder_le n maxOrder)
    [base]
  unfold wholeRegion
  simp only [List.length_nil, List.length_singleton, Nat.zero_mul, weight_nil] at hup
  omega

theorem Handed.tally (h : Handed base n w) :
    Tally base (memmapOrder n maxOrder) w (wholeRegion base n) := by
  have hH : (fun _ _ => False) = Held w := by
    funext x k
    unfold Held
    simp [h.held]
  have hsmall : ∀ p m, w.held p = some m → m ≤ 1024 := by
    intro p m hp
    rw [h.held p] at hp
    cases hp
  refine ⟨hH ▸ h.good, ?_, hsmall, ?_⟩
  · obtain ⟨s, -, hcall⟩ := h.init
    unfold buddyInitMemmap at hcall
    split at hcall
    case isFalse _ => cases hcall
    case isTrue _ =>
      have hw := (Option.some.inj hcall).symm
      have hzero : ∀ k, k ≤ maxOrder → (buddyInit s).nrFree k = 0 := by
        intro k hk
        refine buddyInit_nrFree _ s _ rfl (.inl (List.mem_range.2 ?_))
        exact Nat.lt_succ_of_le hk
      intro k hk
      rw [hw]
      unfold wholeRegion
      by_cases hkm : k = memmapOrder n maxOrder
      · rw [← hkm]
        simp [State.setPgProperty, State.setProperty, State.setPage,
          hzero k hk]
      · simp [State.setPgProperty, State.setProperty, State.setPage, hkm,
          hzero k hk]
  · have hnone : ∀ p, heldSize w.held p = 0 := by
      intro p
      unfold heldSize
      rw [h.held p]
    rw [wholeRegion_weight, Finset.sum_eq_zero fun p _ => hnone p]
    rfl

/-- When the first page is the only one marked at the start, the only marks are
those of the lists. -/
theorem Handed.flagged {s : State}
    (hclear : ∀ p, p ≠ base → (s.pages p).pgProperty = false)
    (hcall : buddyInitMemmap (buddyInit s) base n = some s') :
    Flagged s' (wholeRegion base n) noneInHand := by
  obtain ⟨hp, -, -⟩ := buddyInit_fold _ s (buddyInit s) rfl
  unfold buddyInitMemmap at hcall
  split at hcall
  case isFalse _ => cases hcall
  case isTrue _ =>
    cases hcall
    have hmem : ∀ k x, x ∈ wholeRegion base n k
        ↔ x = base ∧ k = memmapOrder n maxOrder := by
      intro k x
      have hcons : x ∈ wholeRegion base n k
          ↔ x ∈ ([] : List Nat) ∨ (x = base ∧ k = memmapOrder n maxOrder) :=
        mem_update_cons
      simpa using hcons
    have hk := memmapOrder_le n maxOrder
    have hmod : 2 ^ memmapOrder n maxOrder % 2 ^ 32
        = 2 ^ memmapOrder n maxOrder :=
      Nat.mod_eq_of_lt (Nat.pow_lt_pow_right (by omega)
        (by unfold maxOrder at hk ⊢; omega))
    refine ⟨fun k x hx => ?_, fun p hmark => .inl ?_⟩
    · obtain ⟨rfl, rfl⟩ := (hmem k x).1 hx
      simp only [State.setPgProperty, State.setProperty, State.setPage,
        Function.update_self, hmod]
      exact ⟨trivial, trivial⟩
    · by_cases hpb : p = base
      · exact ⟨_, (hmem _ p).2 ⟨hpb, rfl⟩⟩
      · simp only [State.setPgProperty, State.setProperty, State.setPage,
          Function.update_of_ne hpb, hp, hclear p hpb] at hmark
        cases hmark

-- ==================================================== the free pages

/-- The order of the region. -/
theorem memmapOrder_two_pow (hk : k ≤ m) : memmapOrder (2 ^ k) m = k := by
  induction m with
  | zero => exact (Nat.le_zero.1 hk).symm
  | succ m ih =>
      unfold memmapOrder
      split
      case isTrue hlt =>
        refine ih ?_
        by_contra hgt
        obtain rfl : k = m + 1 := by omega
        omega
      case isFalse hge =>
        have hle : 2 ^ (m + 1) ≤ 2 ^ k := by omega
        have := (Nat.pow_le_pow_iff_right (by omega)).1 hle
        omega

/-- As long as the counters are right and the pages few, `buddy_nr_free_pages`
counts the pages on the lists. -/
theorem Counted.nrFreePages (h : Counted s fl) (hle : weight fl ≤ 1024) :
    buddyNrFreePages s = weight fl := by
  have hsum : ∀ i, i ≤ maxOrder + 1 → (List.range i).foldl
      (fun total i => (total + (s.nrFree i).toNat * 2 ^ i % 2 ^ 32) % 2 ^ 64) 0
        = ∑ k ∈ Finset.range i, (fl k).length * 2 ^ k
      ∧ ∑ k ∈ Finset.range i, (fl k).length * 2 ^ k ≤ weight fl := by
    intro i
    induction i with
    | zero => exact fun _ => ⟨rfl, Nat.zero_le _⟩
    | succ i ih =>
        intro hi
        obtain ⟨hfold, -⟩ := ih (by omega)
        have hpart : ∑ k ∈ Finset.range (i + 1), (fl k).length * 2 ^ k
            ≤ weight fl :=
          Finset.sum_le_sum_of_subset (Finset.range_mono hi)
        have hlen := length_le_weight fl (Nat.le_of_lt_succ hi)
        have hcount : (s.nrFree i).toNat = (fl i).length := by
          rw [h i (Nat.le_of_lt_succ hi), BitVec.toNat_ofNat]
          exact Nat.mod_eq_of_lt (by omega)
        refine ⟨?_, hpart⟩
        rw [List.range_succ, List.foldl_append, hfold, Finset.sum_range_succ]
        rw [Finset.sum_range_succ] at hpart
        simp only [List.foldl_cons, List.foldl_nil, hcount]
        rw [Nat.mod_eq_of_lt (by omega), Nat.mod_eq_of_lt (by omega)]
  exact (hsum (maxOrder + 1) (le_refl _)).1

/-- The pages of all requests. -/
theorem Tally.finsum (h : Tally base m w fl) :
    ∑ᶠ p, heldSize w.held p
      = ∑ p ∈ Finset.range (base + 2 ^ m), heldSize w.held p := by
  refine finsum_eq_sum_of_support_subset _ ?_
  intro p hp
  have hne : heldSize w.held p ≠ 0 := hp
  cases hheld : w.held p with
  | none =>
      refine absurd ?_ hne
      unfold heldSize
      rw [hheld]
  | some n =>
      have hin := h.good.within p (orderOf n) (.inr (.inl ⟨n, hheld, rfl⟩))
      have hpos := Nat.two_pow_pos (orderOf n)
      exact Finset.mem_coe.2 (Finset.mem_range.2 (by omega))

/-- In a run without merges, from a region of a power of two of pages that one
list can hold, every page is free or allocated. -/
theorem buddy_nr_free_pages_eq {w₀ : World} {ls : List Label}
    (hstart : Handed base n w₀) (hn : n = 2 ^ k) (hk : k ≤ maxOrder)
    (hrun : Run (fun w l w' => Step w l w' ∧ NoMerge w l) w₀ ls w) :
    buddyNrFreePages w.state + ∑ᶠ p, heldSize w.held p = n := by
  have hinit := hstart.tally
  rw [hn, memmapOrder_two_pow hk] at hinit
  obtain ⟨fl, h⟩ := hrun.invariant (I := fun w => ∃ fl, Tally base k w fl)
    (fun h hs => by
      obtain ⟨fl, h⟩ := h
      obtain ⟨fl', h', -⟩ := h.step hs.2 hs.1
      exact ⟨fl', h'⟩) ⟨_, hinit⟩
  have hweight := h.weight
  have hle : 2 ^ k ≤ 2 ^ maxOrder := Nat.pow_le_pow_right (by omega) hk
  have hmax : 2 ^ maxOrder = 1024 := rfl
  rw [h.counted.nrFreePages (by omega), h.finsum, hweight, hn]

/-- Four pages from page 8, none of them marked, handed over. -/
def alignedPages : State where
  pages _ := { pgProperty := false, property := 0 }
  links := { prev := id, next := id }
  nrFree _ := 0
  npage := 16
  touched _ := false

def alignedWorld : World where
  state := (buddyInitMemmap (buddyInit alignedPages) 8 4).getD alignedPages
  held _ := none

theorem alignedWorld_clear : HandedClear 8 4 alignedWorld :=
  ⟨⟨alignedPages, fun _ => rfl, fun _ _ => rfl, rfl⟩, fun _ => rfl⟩

theorem HandedClear.handed (h : HandedClear base n w) : Handed base n w := by
  obtain ⟨s, ht, -, hcall⟩ := h.init
  exact ⟨⟨s, ht, hcall⟩, h.held⟩

/-- The counters of the lists that buddies are merged from stay too high. -/
theorem buddy_nr_free_pages_ne :
    ¬ ∀ (base n : Nat) (w₀ w : World) (ls : List Label),
      Handed base n w₀ → Run Step w₀ ls w →
      buddyNrFreePages w.state + ∑ᶠ p, heldSize w.held p = n := by
  intro hall
  have hseven : (calls alignedWorld [.alloc 1 (some 8), .free 8 1]).map
      (fun w => buddyNrFreePages w.state) = some 7 := by decide +kernel
  obtain ⟨w, hcalls, hw⟩ := Option.map_eq_some_iff.1 hseven
  have hfour := hall 8 4 alignedWorld w _ alignedWorld_clear.handed
    (calls_run hcalls)
  omega

/-- Two pages allocated and one given back, next to the other. -/
theorem alignedWorld_run : ∃ w₁ w₂ w₃,
    call alignedWorld (.alloc 1 (some 8)) = some w₁
      ∧ call w₁ (.alloc 1 (some 9)) = some w₂
      ∧ call w₂ (.free 9 1) = some w₃
      ∧ w₂.held 8 = some 1
      ∧ ((w₂.state.pages (buddyOf 9 0)).pgProperty = false
        ∧ orderOf 1 = 0) := by
  have hsome : ((call alignedWorld (.alloc 1 (some 8))).bind fun w₁ =>
      (call w₁ (.alloc 1 (some 9))).bind fun w₂ =>
        if w₂.held 8 = some 1
            ∧ ((w₂.state.pages (buddyOf 9 0)).pgProperty = false
              ∧ orderOf 1 = 0)
          then (call w₂ (.free 9 1)).map fun _ => () else none)
      = some () := by decide +kernel
  obtain ⟨w₁, h₁, hsome⟩ := Option.bind_eq_some_iff.1 hsome
  obtain ⟨w₂, h₂, hsome⟩ := Option.bind_eq_some_iff.1 hsome
  split at hsome
  case isFalse _ => cases hsome
  case isTrue hcond =>
    obtain ⟨w₃, h₃, -⟩ := Option.map_eq_some_iff.1 hsome
    exact ⟨w₁, w₂, w₃, h₁, h₂, h₃, hcond.1, hcond.2⟩

theorem buddy_nr_free_pages_eq_four : ∃ w : World,
    Run (fun w l w' => Step w l w' ∧ NoMerge w l) alignedWorld
      [.alloc 1 (some 8), .alloc 1 (some 9), .free 9 1] w
      ∧ buddyNrFreePages w.state + ∑ᶠ p, heldSize w.held p = 4 := by
  obtain ⟨w₁, w₂, w₃, h₁, h₂, h₃, -, hmark, hord⟩ := alignedWorld_run
  have hno : NoMerge w₂ (.free 9 1) := by
    intro hmatch
    unfold Matches at hmatch
    rw [hord] at hmatch
    exact absurd hmatch.1 (by rw [show mergedBase 9 0 0 = 9 from rfl, hmark]; simp)
  have hrun : Run (fun w l w' => Step w l w' ∧ NoMerge w l) alignedWorld
      [.alloc 1 (some 8), .alloc 1 (some 9), .free 9 1] w₃ :=
    .cons ⟨call_step h₁, trivial⟩
      (.cons ⟨call_step h₂, trivial⟩ (.single ⟨call_step h₃, hno⟩))
  exact ⟨w₃, hrun, buddy_nr_free_pages_eq (k := 2) alignedWorld_clear.handed rfl
    (by decide) hrun⟩

-- ================================================ the representation

/-- What holds between two calls of a run in which, too, the last block freed is
the whole region. -/
def Ordered (base n : Nat) (w : World) : Prop :=
  ∃ fl, Tally base (memmapOrder n maxOrder) w fl ∧ Flagged w.state fl noneInHand
    ∧ ((∀ p, w.held p = none) → fl = wholeRegion base n)

theorem HandedClear.ordered (h : HandedClear base n w) : Ordered base n w := by
  obtain ⟨s, -, hclear, hcall⟩ := h.init
  exact ⟨_, h.handed.tally, Handed.flagged hclear hcall, fun _ => rfl⟩

/-- A block that is all there is of the region is its first and only one. -/
theorem Tally.whole (h : Tally base (memmapOrder n maxOrder) w fl)
    (hfl : fl = Function.update (fun _ => []) k [x]) (hk : k ≤ maxOrder)
    (hheld : ∀ p, w.held p = none) : fl = wholeRegion base n := by
  have hzero : ∑ p ∈ Finset.range (base + 2 ^ memmapOrder n maxOrder),
      heldSize w.held p = 0 := by
    refine Finset.sum_eq_zero fun p _ => ?_
    unfold heldSize
    rw [hheld p]
  have hweight := h.weight
  have hup := weight_update (fun _ => []) hk [x]
  rw [← hfl] at hup
  simp only [List.length_nil, List.length_singleton, Nat.zero_mul, weight_nil] at hup
  have hkm : k = memmapOrder n maxOrder :=
    Nat.pow_right_injective (le_refl 2)
      (show 2 ^ k = 2 ^ memmapOrder n maxOrder by omega)
  have hx : x ∈ fl k := by
    rw [hfl, Function.update_self]
    exact List.mem_singleton_self x
  have hin := h.good.within x k (.inl hx)
  obtain rfl : x = base := by
    rw [hkm] at hin
    omega
  unfold wholeRegion
  rw [hfl, hkm]

theorem Ordered.step (h : Ordered base n w) (hno : NoMerge w lb)
    (hparts : NotInParts w lb) (hstep : Step w lb w') : Ordered base n w' := by
  obtain ⟨fl, h, hflag, hwhole⟩ := h
  obtain ⟨fl', h', hflag', hcase⟩ := h.step hno hstep
  refine ⟨fl', h', hflag' hflag, fun hnone => ?_⟩
  rcases hcase with ⟨hheld, rfl⟩ | ⟨p, hp⟩ | ⟨x, m, rfl, hx, hfl⟩
  · exact hwhole fun p => hheld ▸ hnone p
  · exact absurd (hnone p) hp
  · have hm := orderOf_le_maxOrder (h.small x m hx)
    have hothers : ∀ p, p ≠ x → w.held p = none := by
      intro p hp
      cases hstep with
      | free hheld hcall =>
          have hpn : Function.update w.held x none p = none := hnone p
          rw [Function.update_of_ne hp] at hpn
          exact hpn
    have hempty : ∀ k, fl k = [] := by
      intro k
      rcases Nat.lt_or_ge maxOrder k with hk | hk
      · exact h.good.deep k hk
      · have hlist := hparts hothers k hk
        have hring := h.good.rings.ring k hk
        exact List.map_eq_nil_iff.1 ((listEmpty_ring hring).1 hlist)
    refine h'.whole (k := orderOf m) (x := x) ?_ hm hnone
    have hflnil : fl = fun _ => [] := funext hempty
    rw [hfl, hflnil]

/-- In a run without merges, in which the last block freed is not one of the
parts of a larger one, and with no page marked at the start, lists, headers and
counters agree, and with every block freed there is the initial block alone. -/
theorem buddy_lists_inStep {w₀ : World} {ls : List Label}
    (hstart : HandedClear base n w₀)
    (hrun : Run (fun w l w' => Step w l w' ∧ NoMerge w l ∧ NotInParts w l)
      w₀ ls w) : InStep base n w := by
  obtain ⟨fl, h, hflag, hwhole⟩ := hrun.invariant (I := Ordered base n)
    (fun h hs => Ordered.step h hs.2.1 hs.2.2 hs.1) hstart.ordered
  refine ⟨fl, ⟨h.good.rings, h.good.deep, hflag.listed, ?_, ?_⟩, hwhole⟩
  · intro k hk
    have hlen := length_le_weight fl hk
    have hweight := h.weight
    have hm := memmapOrder_le n maxOrder
    have hle : 2 ^ memmapOrder n maxOrder ≤ 2 ^ maxOrder :=
      Nat.pow_le_pow_right (by omega) hm
    have hmax : 2 ^ maxOrder = 1024 := rfl
    rw [h.counted k hk, BitVec.toNat_ofNat]
    exact Nat.mod_eq_of_lt (by omega)
  · intro p hp
    exact (hflag.only p hp).resolve_right id

/-- After a merge the header of the block is not in step. -/
theorem buddy_lists_outOfStep :
    ¬ ∀ (base n : Nat) (w₀ w : World) (ls : List Label),
      HandedClear base n w₀ → Run Step w₀ ls w → InStep base n w := by
  intro hall
  have hcount : (calls alignedWorld [.alloc 1 (some 8), .free 8 1]).map
      (fun w => ((w.state.nrFree 0).toNat,
        listEmpty w.state.links (.freeList 0))) = some (1, true) := by
    decide +kernel
  obtain ⟨w, hcalls, hw⟩ := Option.map_eq_some_iff.1 hcount
  obtain ⟨fl, hrep, -⟩ := hall 8 4 alignedWorld w _ alignedWorld_clear
    (calls_run hcalls)
  obtain ⟨hone, hempty⟩ := Prod.mk.inj hw
  have hring := hrep.rings.ring 0 (Nat.zero_le _)
  have hnil := List.map_eq_nil_iff.1 ((listEmpty_ring hring).1 hempty)
  have hlen := hrep.nrFree 0 (Nat.zero_le _)
  rw [hnil, hone] at hlen
  simp at hlen

theorem buddy_lists_inStep_four : ∃ w : World,
    Run (fun w l w' => Step w l w' ∧ NoMerge w l ∧ NotInParts w l) alignedWorld
      [.alloc 1 (some 8), .alloc 1 (some 9), .free 9 1] w
      ∧ InStep 8 4 w := by
  obtain ⟨w₁, w₂, w₃, h₁, h₂, h₃, hheld, hmark, hord⟩ := alignedWorld_run
  have hno : NoMerge w₂ (.free 9 1) := by
    intro hmatch
    unfold Matches at hmatch
    rw [hord] at hmatch
    exact absurd hmatch.1 (by rw [show mergedBase 9 0 0 = 9 from rfl, hmark]; simp)
  have hparts : NotInParts w₂ (.free 9 1) := by
    intro hnone
    have hcon := hnone 8 (by decide)
    rw [hheld] at hcon
    cases hcon
  have hrun : Run (fun w l w' => Step w l w' ∧ NoMerge w l ∧ NotInParts w l)
      alignedWorld [.alloc 1 (some 8), .alloc 1 (some 9), .free 9 1] w₃ :=
    .cons ⟨call_step h₁, trivial, trivial⟩
      (.cons ⟨call_step h₂, trivial, trivial⟩
        (.single ⟨call_step h₃, hno, hparts⟩))
  exact ⟨w₃, hrun, buddy_lists_inStep alignedWorld_clear hrun⟩

end Ucore.Buddy
