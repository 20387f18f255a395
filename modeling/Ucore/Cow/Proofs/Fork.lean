/-
What `copy_mm` does when a process with fully mapped areas forks: the child
gets the areas of the parent in the same order, and both map every page of
them under the same entry.
-/
import Ucore.Cow.Proc
import Ucore.Cow.Proofs.CopyRange

namespace Ucore.Cow

open Mm

variable {M : PmmManager} {roots : Finset Nat} {lost : Set Nat}
  {s s' : Machine M}

-- ========================================================== dup_mmap

section DupMmap

variable {src : Nat}

/-- How `dup_mmap` ends: all pages were shared, or there were not three
free pages for each of them. -/
def DupOutcome (roots : Finset Nat) (lost : Set Nat) (src : Nat)
    (vmas : List Vma) (dst : MmStruct) (s : Machine M)
    (r : Option (Bool × MmStruct × Machine M)) : Prop :=
  (∃ n s', r = some (true,
        { dst with mmapList := vmas.reverse ++ dst.mmapList, mapCount := n },
        s')
      ∧ Shared roots lost dst.pgdir src (InVmas vmas) s s'
      ∧ s.free.card ≤ s'.free.card + 3 * pages vmas)
    ∨ (∀ dst' s', r ≠ some (true, dst', s'))
      ∧ s.free.card < 3 * pages vmas

/-- The loop of `dup_mmap`, over areas from the last to the first. -/
theorem dupVmas_spec {fuel : Nat} (hs : src ∈ roots) :
    ∀ {vmas : List Vma} {dst : MmStruct} {s : Machine M},
      RefInv roots lost noHold s → dst.pgdir ∈ roots → dst.pgdir ≠ src →
      Sorted (vmas.reverse ++ dst.mmapList) →
      (∀ vma ∈ vmas.reverse ++ dst.mmapList, VmaOk vma) →
      (∀ vma ∈ vmas, Full roots s src vma.vmStart vma.vmEnd) →
      (∀ vma ∈ vmas, vma.vmEnd - vma.vmStart ≤ fuel * pgsize) →
      DupOutcome roots lost src vmas dst s (dupVmas fuel src vmas dst s) := by
  intro vmas
  induction vmas with
  | nil =>
      intro dst s h _ _ _ _ _ _
      refine Or.inl ⟨dst.mapCount, s, rfl, Shared.refl h ?_, Nat.le_add_right _ _⟩
      rintro va ⟨vma, hin, -⟩
      cases hin
  | cons vma vmas ih =>
      intro dst s h hd hne hsorted hok hfull hfuel
      rw [List.reverse_cons, List.append_assoc, List.singleton_append]
        at hsorted hok
      have hokv : VmaOk vma := hok vma (by simp)
      have hrest := (List.pairwise_append.mp hsorted)
      have hfirst : insertVmaStruct dst vma = some { dst with
          mmapList := vma :: dst.mmapList, mapCount := dst.mapCount + 1 } :=
        insertVmaStruct_first hrest.2.1
          fun v hv => hok v (List.mem_append_right _ hv)
      have hbefore : ∀ v ∈ vmas, v.vmEnd ≤ vma.vmStart := fun v hv =>
        hrest.2.2 v (List.mem_reverse.mpr hv) vma List.mem_cons_self
      have hoks : ∀ v ∈ vmas, VmaOk v := fun v hv =>
        hok v (List.mem_append_left _ (List.mem_reverse.mpr hv))
      have hpages : pages (vma :: vmas)
          = (vma.vmEnd - vma.vmStart) / pgsize + pages vmas := by
        rw [pages, pages, List.map_cons, List.sum_cons]
      have hcopy := copyRange_spec h hd hs hne hokv.1 hokv.2.1
        hokv.2.2 (hfuel vma List.mem_cons_self) (hfull vma List.mem_cons_self)
      have hbelow : ∀ va, InRange vma.vmStart vma.vmEnd va →
          va < usertop := by
        rintro va ⟨-, hlt⟩
        have htop := hokv.2.2.2.2
        omega
      unfold dupVmas
      rw [hfirst]
      dsimp only
      rcases hcopy with ⟨s₁, hrun₁, hshared₁, hcard₁⟩ | ⟨hfail, hfew⟩
      · rw [hrun₁]
        dsimp only
        have hfull₁ : ∀ v ∈ vmas,
            Full roots s₁ src v.vmStart v.vmEnd := by
          intro v hv va h1 h2
          have hva := inVmas_lt hoks ⟨v, hv, h1, h2⟩
          rw [leafAt, hshared₁.source hne hbelow hva]
          · exact hfull v (List.mem_cons_of_mem _ hv) va h1 h2
          · intro vb hb
            exact (page_ne (hoks v hv) (hbefore v hv) ⟨h1, h2⟩ hb).symm
        let dst₁ : MmStruct := { dst with
          mmapList := vma :: dst.mmapList, mapCount := dst.mapCount + 1 }
        have hd₁ : dst₁.pgdir ∈ roots := hd
        have hout := ih hshared₁.inv hd₁ hne hsorted hok hfull₁
          fun v hv => hfuel v (List.mem_cons_of_mem _ hv)
        rcases hout with ⟨n, s₂, hrun₂, hshared₂, hcard₂⟩ | ⟨hfail, hfew⟩
        · refine Or.inl ⟨n, s₂, ?_, (hshared₁.trans ?_ hbelow ?_ hne
            hshared₂).congr ?_, by omega⟩
          · rw [hrun₂, List.reverse_cons, List.append_assoc,
              List.singleton_append]
          · rintro a b ha ⟨v, hv, hb⟩
            exact (page_ne (hoks v hv) (hbefore v hv) hb ha).symm
          · exact fun va hva => inVmas_lt hoks hva
          · intro va
            constructor
            · rintro (hva | ⟨v, hv, hva⟩)
              · exact ⟨vma, List.mem_cons_self, hva⟩
              · exact ⟨v, List.mem_cons_of_mem _ hv, hva⟩
            · rintro ⟨v, hv, hva⟩
              rcases List.mem_cons.mp hv with rfl | hv
              · exact Or.inl hva
              · exact Or.inr ⟨v, hv, hva⟩
        · exact Or.inr ⟨hfail, by omega⟩
      · refine Or.inr ⟨?_, by omega⟩
        intro dst' s' heq
        cases hr : copyRange fuel s dst.pgdir src vma.vmStart vma.vmEnd true with
        | none => rw [hr] at heq; cases heq
        | some r =>
            obtain ⟨b, s₁⟩ := r
            cases b with
            | false => rw [hr] at heq; cases heq
            | true => exact hfail s₁ hr

end DupMmap

-- =========================================================== copy_mm

section CopyMm

variable {mm child : MmStruct}

theorem frameOf_bootPgdir {i : Nat} (hi : i < 511) :
    frameOf (bootPgdir i) = none := by
  rw [bootPgdir, if_neg (by omega), frameOf_zero]

/-- `setup_pgdir` adds a root that maps nothing. It fails only when no page
is free. -/
theorem setupPgdir_spec (h : RefInv roots lost noHold s) :
    (∃ page s', setupPgdir s = some (page, s')
        ∧ RefInv (insert page roots) lost noHold s' ∧ page ∉ roots
        ∧ (∀ x ∈ slots roots, SameView roots s (insert page roots) s' x)
        ∧ (∀ x : Slot, x.1 = page → pteAt (insert page roots) s' x = 0)
        ∧ s'.free.card + 1 = s.free.card)
      ∨ setupPgdir s = none ∧ s.free = ∅ := by
  unfold setupPgdir
  cases halloc : allocPage s with
  | none => exact Or.inr ⟨rfl, allocPage_none halloc⟩
  | some a =>
      obtain ⟨page, s₁⟩ := a
      obtain ⟨hin, hfree₁, hmem₁, -, -⟩ := allocPage_spec halloc
      let s' : Machine M :=
        { s₁ with mem := Function.update s₁.mem page bootPgdir }
      have hmem : s'.mem = Function.update s₁.mem page bootPgdir := rfl
      have href : s'.ref = s₁.ref := rfl
      have hpmm : s'.pmm = s₁.pmm := rfl
      obtain ⟨h', hnew, hpte, hzero⟩ :=
        h.addRoot halloc hmem href hpmm fun i hi => frameOf_bootPgdir hi
      refine Or.inl ⟨page, s', rfl, h', hnew, ?_, hzero, ?_⟩
      · intro x hx
        have hr : x.1 ≠ page := by
          intro hr
          obtain ⟨r, d1, d0, t⟩ := x
          subst hr
          exact hnew (mem_slots.mp hx).1
        refine ⟨hpte x hr, fun p hp => ?_⟩
        rw [leafAt, hpte x hr] at hp
        have hne : p ≠ page := by
          rintro rfl
          exact (h.mapped hx hp).2.1 hin
        rw [hmem, Function.update_of_ne hne, hmem₁]
      · have hfree : s'.free = s.free.erase page := hfree₁
        rw [hfree]
        exact Finset.card_erase_add_one hin

/-- From `s` to `s'` the child got an address space with the areas of `mm`;
both map every page of them under one entry, and nothing else is mapped by
the child or changed. -/
structure Forked (roots : Finset Nat) (lost : Set Nat) (mm child : MmStruct)
    (s s' : Machine M) : Prop where
  inv : RefInv (insert child.pgdir roots) lost noHold s'
  fresh : child.pgdir ∉ roots
  list_eq : child.mmapList = mm.mmapList
  cache_eq : child.mmapCache = none
  count_eq : child.mmCount = 1
  others : ∀ {x}, x ∈ slots roots → ¬ SlotAt mm.pgdir (InVmas mm.mmapList) x →
    SameView roots s (insert child.pgdir roots) s' x
  outside : ∀ {x}, x.1 = child.pgdir →
    ¬ SlotAt child.pgdir (InVmas mm.mmapList) x →
    pteAt (insert child.pgdir roots) s' x = 0
  shared : ∀ {va f}, InVmas mm.mmapList va →
    leafAt roots s (slotOf mm.pgdir va) = some f →
    pteAt (insert child.pgdir roots) s' (slotOf mm.pgdir va)
        = sharedPte f (pteAt roots s (slotOf mm.pgdir va))
      ∧ pteAt (insert child.pgdir roots) s' (slotOf child.pgdir va)
        = sharedPte f (pteAt roots s (slotOf mm.pgdir va))
      ∧ s'.mem f = s.mem f

/-- `copy_mm` of a process whose areas are fully mapped. -/
theorem copyMm_spec {fuel : Nat} (h : RefInv roots lost noHold s)
    (hs : mm.pgdir ∈ roots) (hsorted : Sorted mm.mmapList)
    (hok : ∀ vma ∈ mm.mmapList, VmaOk vma)
    (hfull : ∀ va, InVmas mm.mmapList va →
      leafAt roots s (slotOf mm.pgdir va) ≠ none)
    (hfuel : ∀ vma ∈ mm.mmapList, vma.vmEnd - vma.vmStart ≤ fuel * pgsize) :
    (∃ child s', copyMm fuel s mm = some (some child, s')
        ∧ Forked roots lost mm child s s')
      ∨ (∀ child s', copyMm fuel s mm ≠ some (some child, s'))
        ∧ s.free.card ≤ 3 * pages mm.mmapList := by
  unfold copyMm
  rcases setupPgdir_spec h with
    ⟨page, s₁, hsetup, h₁, hnew, hview₁, hzero₁, hcard₁⟩ | ⟨hfail, hempty⟩
  · rw [hsetup]
    dsimp only
    have hne : page ≠ mm.pgdir := fun heq => hnew (heq ▸ hs)
    have hvmas : InVmas mm.mmapList.reverse = InVmas mm.mmapList := by
      funext va
      simp only [InVmas, List.mem_reverse]
    have hpages : pages mm.mmapList.reverse = pages mm.mmapList := by
      rw [pages, pages, List.map_reverse, List.sum_reverse]
    have hlist : mm.mmapList.reverse.reverse ++ (mmCreate page).mmapList
        = mm.mmapList := by
      rw [List.reverse_reverse, mmCreate, List.append_nil]
    have hslot : ∀ {va}, InVmas mm.mmapList va →
        slotOf mm.pgdir va ∈ slots roots := fun hva =>
      slotOf_mem hs (pdx1_user (inVmas_lt hok hva))
    have hpte₁ : ∀ {va}, InVmas mm.mmapList va →
        pteAt (insert page roots) s₁ (slotOf mm.pgdir va)
          = pteAt roots s (slotOf mm.pgdir va) := fun hva =>
      (hview₁ _ (hslot hva)).1
    have hfull₁ : ∀ vma ∈ mm.mmapList.reverse,
        Full (insert page roots) s₁ mm.pgdir vma.vmStart vma.vmEnd := by
      intro vma hv va hlo hhi
      have hva : InVmas mm.mmapList va :=
        ⟨vma, List.mem_reverse.mp hv, hlo, hhi⟩
      rw [leafAt, hpte₁ hva]
      exact hfull va hva
    have hout : DupOutcome (insert page roots) lost mm.pgdir
        mm.mmapList.reverse (mmCreate page) s₁
        (dupVmas fuel mm.pgdir mm.mmapList.reverse (mmCreate page) s₁) :=
      dupVmas_spec (Finset.mem_insert_of_mem hs) h₁ (Finset.mem_insert_self page roots) hne
      (hlist.symm ▸ hsorted) (hlist.symm ▸ hok) hfull₁
      fun vma hv => hfuel vma (List.mem_reverse.mp hv)
    unfold dupMmap
    rcases hout with ⟨n, s₂, hrun, hshared, -⟩ | ⟨hfail, hfew⟩
    · rw [hrun]
      rw [hvmas] at hshared
      dsimp only
      refine Or.inl ⟨_, s₂, rfl, hshared.inv, hnew, hlist, rfl, rfl, ?_, ?_,
        ?_⟩
      · intro x hx hX
        have hx' : x ∈ slots (insert page roots) := by
          obtain ⟨r, d1, d0, t⟩ := x
          rw [mem_slots] at hx ⊢
          exact ⟨Finset.mem_insert_of_mem hx.1, hx.2⟩
        refine (hview₁ x hx).trans (hshared.edits.sameView hshared.inv hx' ?_)
        rintro (hX' | ⟨va, -, rfl⟩)
        · exact hX hX'
        · exact hnew (mem_slots.mp hx).1
      · intro x hx hX
        refine (hshared.edits.pte_eq ?_).trans (hzero₁ x hx)
        rintro (⟨va, -, rfl⟩ | hX')
        · exact hne hx.symm
        · exact hX hX'
      · intro va f hva hleaf
        have hleaf₁ : leafAt (insert page roots) s₁ (slotOf mm.pgdir va)
            = some f := by
          rw [leafAt, hpte₁ hva]
          exact hleaf
        obtain ⟨hsrc, hdst⟩ := hshared.shared hva hleaf₁
        rw [hpte₁ hva] at hsrc hdst
        refine ⟨hsrc, hdst, ?_⟩
        have hf := h.mapped (hslot hva) hleaf
        have hslot₂ : slotOf mm.pgdir va ∈ slots (insert page roots) :=
          slotOf_mem (Finset.mem_insert_of_mem hs)
            (pdx1_user (inVmas_lt hok hva))
        have hf₂ := hshared.inv.mapped hslot₂ (p := f) (by
          rw [leafAt, hsrc]
          exact frameOf_sharedPte hf.1)
        rw [hshared.edits.mem_eq hf₂.2.2]
        exact (hview₁ _ (hslot hva)).2 f hleaf₁
    · rw [hpages] at hfew
      refine Or.inr ⟨?_, by omega⟩
      intro child s' heq
      cases hr : dupVmas fuel mm.pgdir mm.mmapList.reverse (mmCreate page) s₁ with
      | none => rw [hr] at heq; cases heq
      | some r =>
          obtain ⟨b, dst, s₂⟩ := r
          rw [hr] at heq
          cases b with
          | true => exact hfail dst s₂ hr
          | false =>
              dsimp only at heq
              cases hexit : exitMmap s₂ dst with
              | none => rw [hexit] at heq; cases heq
              | some s₃ => rw [hexit] at heq; cases heq
  · rw [hfail]
    refine Or.inr ⟨fun child s' heq => (by cases heq), ?_⟩
    rw [hempty, Finset.card_empty]
    exact Nat.zero_le _

end CopyMm

-- ========================================================= more fuel

section Fuel

variable {fuel more dst src last start : Nat} {share : Bool}

/-- More fuel does not change what the loop of `copy_range` returns. The
induction is on the fuel it returned with. -/
theorem copyLoop_more (hle : fuel ≤ more) :
    ∀ {s : Machine M} {start : Nat} {r : Bool × Machine M},
      copyLoop dst src last share fuel s start = some r →
      copyLoop dst src last share more s start = some r := by
  induction fuel generalizing more with
  | zero =>
      intro s start r h
      cases h
  | succ fuel ih =>
      intro s start r h
      obtain ⟨more, rfl⟩ : ∃ n, more = n + 1 := ⟨more - 1, by omega⟩
      have hle' : fuel ≤ more := by omega
      unfold copyLoop at h ⊢
      cases hget : getPte s src start false with
      | none => rw [hget] at h; cases h
      | some a =>
          obtain ⟨o, s₁⟩ := a
          rw [hget] at h
          cases o with
          | none =>
              dsimp only at h ⊢
              split at h
              case isTrue hmore => rw [if_pos hmore]; exact ih hle' h
              case isFalse hdone => rw [if_neg hdone]; exact h
          | some ptep =>
              dsimp only at h ⊢
              split at h
              case isFalse hv =>
                  rw [if_neg hv]
                  split at h
                  case isTrue hmore => rw [if_pos hmore]; exact ih hle' h
                  case isFalse hdone => rw [if_neg hdone]; exact h
              case isTrue hv =>
                  rw [if_pos hv]
                  cases hdst : getPte s₁ dst start true with
                  | none => rw [hdst] at h; cases h
                  | some a =>
                      obtain ⟨o, s₂⟩ := a
                      rw [hdst] at h
                      cases o with
                      | none => exact h
                      | some nptep =>
                          dsimp only at h ⊢
                          cases hpage : copyPte s₂ dst src (s₂.word ptep) start
                              share with
                          | none => rw [hpage] at h; cases h
                          | some s₃ =>
                              rw [hpage] at h
                              dsimp only at h ⊢
                              split at h
                              case isTrue hmore =>
                                  rw [if_pos hmore]
                                  exact ih hle' h
                              case isFalse hdone =>
                                  rw [if_neg hdone]
                                  exact h

theorem copyRange_more (hle : fuel ≤ more) {r : Bool × Machine M}
    (h : copyRange fuel s dst src start last share = some r) :
    copyRange more s dst src start last share = some r := by
  unfold copyRange at h ⊢
  split at h
  case isTrue hok => rw [if_pos hok]; exact copyLoop_more hle h
  case isFalse => cases h

theorem dupVmas_more (hle : fuel ≤ more) :
    ∀ {vmas : List Vma} {dst : MmStruct} {s : Machine M}
      {r : Bool × MmStruct × Machine M}, dupVmas fuel src vmas dst s = some r →
      dupVmas more src vmas dst s = some r := by
  intro vmas
  induction vmas with
  | nil => exact id
  | cons vma vmas ih =>
      intro dst s r h
      unfold dupVmas at h ⊢
      cases hins : insertVmaStruct dst vma with
      | none => rw [hins] at h; cases h
      | some dst₁ =>
          rw [hins] at h
          dsimp only at h ⊢
          cases hcopy : copyRange fuel s dst₁.pgdir src vma.vmStart vma.vmEnd
              true with
          | none => rw [hcopy] at h; cases h
          | some a =>
              obtain ⟨b, s₁⟩ := a
              rw [hcopy] at h
              rw [copyRange_more hle hcopy]
              cases b with
              | false => exact h
              | true => exact ih h

/-- More fuel does not change what `copy_mm` returns. -/
theorem copyMm_more (hle : fuel ≤ more) {mm : MmStruct}
    {r : Option MmStruct × Machine M} (h : copyMm fuel s mm = some r) :
    copyMm more s mm = some r := by
  unfold copyMm dupMmap at h ⊢
  cases hsetup : setupPgdir s with
  | none => rw [hsetup] at h; exact h
  | some a =>
      obtain ⟨pgdir, s₁⟩ := a
      rw [hsetup] at h
      dsimp only at h ⊢
      cases hdup : dupVmas fuel mm.pgdir mm.mmapList.reverse (mmCreate pgdir)
          s₁ with
      | none => rw [hdup] at h; cases h
      | some a =>
          rw [hdup] at h
          rw [dupVmas_more hle hdup]
          exact h

end Fuel

end Ucore.Cow
