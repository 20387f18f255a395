/-
The page tables of lab3 as maps: what each store does to the entries that
`get_pte` finds, and the numbers of the swap slots.
-/
import Ucore.Swap.Paging
import Ucore.Mm.Proofs.PageTable

namespace Ucore.Swap

variable {M : PmmManager} {s : State M} {d d1 d0 page w : Nat} {x : Slot}

-- ======================================================= the entries

theorem State.hasTable_of_lookup (h : s.lookup d x ≠ 0) : s.HasTable d x := by
  by_contra hno
  exact h (if_neg hno)

theorem State.lookup_eq (h : s.HasTable d x) : s.lookup d x = s.pte d x :=
  if_pos h

@[simp] theorem setPte_hasTable (d' : Nat) (x' : Slot) :
    (setPte d x w s).HasTable d' x' ↔ s.HasTable d' x' :=
  Iff.rfl

/-- A store to an entry changes that entry. -/
theorem lookup_setPte (h : s.HasTable d x) (d' : Nat) (x' : Slot) :
    (setPte d x w s).lookup d' x'
      = if d' = d ∧ x' = x then w else s.lookup d' x' := by
  unfold State.lookup
  by_cases htable : s.HasTable d' x'
  · rw [if_pos ((setPte_hasTable d' x').mpr htable), if_pos htable]
    unfold setPte
    dsimp only
    by_cases hd : d' = d
    · subst hd
      rw [Function.update_self, Function.update_apply]
      simp
    · rw [Function.update_of_ne hd, if_neg fun h => hd h.1]
  · rw [if_neg fun h => htable ((setPte_hasTable d' x').mp h), if_neg htable,
      if_neg]
    intro heq
    exact htable (heq.1 ▸ heq.2 ▸ h)

/-- A new directory has no tables, so no entries. -/
theorem lookup_enterDir (h : s.dirs d d1 = none) (d' : Nat) (x' : Slot) :
    (enterDir d d1 page s).lookup d' x' = s.lookup d' x' := by
  obtain ⟨i, j, k⟩ := x'
  by_cases hd : d' = d ∧ i = d1
  · obtain ⟨rfl, rfl⟩ := hd
    have hno : ¬ s.HasTable d' (i, j, k) := fun htable => by
      rw [State.HasTable, h] at htable
      exact Bool.noConfusion htable.1
    have hno' : ¬ (enterDir d' i page s).HasTable d' (i, j, k) :=
      fun htable => by
        have htable := htable.2
        simp [enterDir] at htable
    rw [State.lookup, if_neg hno', State.lookup, if_neg hno]
  · have hsame : (enterDir d d1 page s).HasTable d' (i, j, k)
        ↔ s.HasTable d' (i, j, k) := by
      by_cases hd' : d' = d
      · subst hd'
        have hi : i ≠ d1 := fun heq => hd ⟨rfl, heq⟩
        simp [State.HasTable, enterDir, hi]
      · simp [State.HasTable, enterDir, hd']
    unfold State.lookup
    by_cases htable : s.HasTable d' (i, j, k)
    · rw [if_pos (hsame.mpr htable), if_pos htable]
      rfl
    · rw [if_neg fun h => htable (hsame.mp h), if_neg htable]

/-- A new page table has no entries. -/
theorem lookup_enterTable (h : s.tables d d1 d0 = none) (d' : Nat)
    (x' : Slot) :
    (enterTable d d1 d0 page s).lookup d' x' = s.lookup d' x' := by
  obtain ⟨i, j, k⟩ := x'
  by_cases hd : d' = d ∧ i = d1 ∧ j = d0
  · obtain ⟨rfl, rfl, rfl⟩ := hd
    have hno : ¬ s.HasTable d' (i, j, k) := fun htable => by
      rw [State.HasTable, h] at htable
      exact Bool.noConfusion htable.2
    rw [State.lookup, State.lookup, if_neg hno]
    split
    case isTrue => simp [enterTable]
    case isFalse => rfl
  · have hsame : (enterTable d d1 d0 page s).HasTable d' (i, j, k)
        ↔ s.HasTable d' (i, j, k) := by
      by_cases hd' : d' = d
      · subst hd'
        by_cases hi : i = d1
        · subst hi
          have hj : j ≠ d0 := fun heq => hd ⟨rfl, rfl, heq⟩
          simp [State.HasTable, enterTable, hj]
        · simp [State.HasTable, enterTable, hi]
      · simp [State.HasTable, enterTable, hd']
    have hpte : (enterTable d d1 d0 page s).pte d' (i, j, k)
        = s.pte d' (i, j, k) := by
      by_cases hd' : d' = d
      · subst hd'
        have hij : ¬ (i = d1 ∧ j = d0) := fun heq => hd ⟨rfl, heq⟩
        simp only [enterTable, Function.update_self]
        exact if_neg hij
      · simp [enterTable, hd']
    unfold State.lookup
    by_cases htable : s.HasTable d' (i, j, k)
    · rw [if_pos (hsame.mpr htable), if_pos htable, hpte]
    · rw [if_neg fun h => htable (hsame.mp h), if_neg htable]

theorem enterDir_hasTable (h : s.dirs d d1 = none) {d' : Nat} {x' : Slot}
    (htable : s.HasTable d' x') : (enterDir d d1 page s).HasTable d' x' := by
  by_cases hd : d' = d ∧ x'.1 = d1
  · rw [State.HasTable, hd.1, hd.2, h] at htable
    exact Bool.noConfusion htable.1
  · by_cases hd' : d' = d
    · subst hd'
      have hi : x'.1 ≠ d1 := fun heq => hd ⟨rfl, heq⟩
      simpa [State.HasTable, enterDir, hi] using htable
    · simpa [State.HasTable, enterDir, hd'] using htable

theorem enterTable_hasTable {d' : Nat} {x' : Slot}
    (htable : s.HasTable d' x') :
    (enterTable d d1 d0 page s).HasTable d' x' := by
  refine ⟨htable.1, ?_⟩
  have hsome := htable.2
  by_cases hd' : d' = d
  · subst hd'
    by_cases hi : x'.1 = d1
    · by_cases hj : x'.2.1 = d0
      · simp [enterTable, hi, hj]
      · simpa [enterTable, hi, hj] using hi ▸ hsome
    · simpa [enterTable, hi] using hsome
  · simpa [enterTable, hd'] using hsome

-- ========================================================== find_pte

/-- Without `create`, `get_pte` finds the slot if there is a page table. -/
theorem findPte_eq (s : State M) (d la : Nat) : findPte d la s
    = some (if s.HasTable d (slotOf la) then some (slotOf la) else none, s) := by
  have hdir : getDir Call.panic d la false s
      = some ((s.dirs d (pdx1 la)).isSome, s) := by
    show (if (s.dirs d (pdx1 la)).isSome then pure true else _ :
      Call (State M) Bool) s = _
    cases (s.dirs d (pdx1 la)).isSome <;> rfl
  have htable : getTable Call.panic d la false s
      = some ((s.tables d (pdx1 la) (pdx0 la)).isSome, s) := by
    show (if (s.tables d (pdx1 la) (pdx0 la)).isSome then pure true else _ :
      Call (State M) Bool) s = _
    cases (s.tables d (pdx1 la) (pdx0 la)).isSome <;> rfl
  have hiff : s.HasTable d (slotOf la) ↔ (s.dirs d (pdx1 la)).isSome = true
      ∧ (s.tables d (pdx1 la) (pdx0 la)).isSome = true :=
    Iff.rfl
  unfold findPte getPte
  rw [Call.bind_of_eq _ hdir]
  cases hd : (s.dirs d (pdx1 la)).isSome with
  | false =>
      have hno : ¬ s.HasTable d (slotOf la) := fun h => by
        rw [hiff, hd] at h
        exact Bool.noConfusion h.1
      rw [if_neg hno]
      rfl
  | true =>
      rw [if_pos rfl, Call.bind_of_eq _ htable]
      cases ht : (s.tables d (pdx1 la) (pdx0 la)).isSome with
      | false =>
          have hno : ¬ s.HasTable d (slotOf la) := fun h => by
            rw [hiff, ht] at h
            exact Bool.noConfusion h.2
          rw [if_neg hno]
          rfl
      | true =>
          rw [if_pos (hiff.mpr ⟨hd, ht⟩)]
          rfl

-- ====================================================== swap entries

/-- The number of the slot in the device. -/
theorem swapEntry_shiftRight (v : Nat) :
    swapEntry v >>> 8 = v / pgsize + 1 :=
  Nat.shiftLeft_shiftRight _ 8

theorem swapEntry_ne_zero (v : Nat) : swapEntry v ≠ 0 := by
  intro hzero
  have := swapEntry_shiftRight v
  rw [hzero] at this
  simp at this

/-- A swap entry is not valid. -/
theorem frameOf_swapEntry (v : Nat) : frameOf (swapEntry v) = none := by
  rw [frameOf_eq_none_iff, hasFlag_pteV, swapEntry, Nat.shiftLeft_eq]
  omega

theorem swapOffset_swapEntry (v : Nat) : swapOffset (swapEntry v)
    = if v / pgsize + 1 < maxSwapOffset then some (v / pgsize + 1)
      else none := by
  unfold swapOffset
  rw [swapEntry_shiftRight]
  by_cases h : v / pgsize + 1 < maxSwapOffset
  · rw [if_pos h, if_pos ⟨Nat.succ_pos _, h⟩]
  · rw [if_neg h, if_neg fun h' => h h'.2]

theorem swapOffset_eq_some {w offset : Nat} : swapOffset w = some offset
    ↔ (0 < w >>> 8 ∧ w >>> 8 < maxSwapOffset) ∧ w >>> 8 = offset := by
  unfold swapOffset
  by_cases h : 0 < w >>> 8 ∧ w >>> 8 < maxSwapOffset
  · rw [if_pos h, Option.some.injEq]
    exact ⟨fun heq => ⟨h, heq⟩, fun heq => heq.2⟩
  · rw [if_neg h]
    exact ⟨(fun h => by cases h), fun heq => absurd heq.1 h⟩

theorem maxSwapOffset_eq : maxSwapOffset = 7 := rfl

/-- A valid entry of a page of memory is no swap entry. -/
theorem swapOffset_valid {pte p : Nat} (hpte : frameOf pte = some p)
    (hp : Mm.Managed p) : swapOffset pte = none := by
  have hppn : ppn (pteAddr pte) = p := by
    unfold frameOf at hpte
    split at hpte
    case isTrue => exact Option.some.inj hpte
    case isFalse => cases hpte
  have hlow : nbase ≤ p := hp.1
  have hshift : p ≤ pte >>> 8 := by
    rw [← hppn, ppn, pteAddr, Nat.shiftRight_eq_div_pow _ 12,
      Nat.shiftLeft_eq, Nat.shiftLeft_eq, Nat.shiftRight_eq_div_pow,
      Nat.shiftRight_eq_div_pow]
    omega
  unfold swapOffset
  rw [if_neg]
  intro h
  have hlt := h.2
  rw [maxSwapOffset_eq] at hlt
  unfold nbase at hlow
  omega

/-- Two swapped pages with one slot in the device are one page. -/
theorem slotOf_of_swapEntry {v v' : Nat}
    (h : swapEntry v >>> 8 = swapEntry v' >>> 8) : slotOf v = slotOf v' := by
  rw [swapEntry_shiftRight, swapEntry_shiftRight] at h
  have hpage : v / pgsize = v' / pgsize := by omega
  obtain ⟨h1, h0, ht⟩ := indices_of_page hpage
  unfold slotOf
  rw [h1, h0, ht]

end Ucore.Swap
