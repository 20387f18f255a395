/-
`page_insert` where the page table is there: it writes the entry and
nothing else, so every table stays where it is. With a page that was just
allocated and filled this is how a copy of a page is mapped (`Installed`).
-/
import Ucore.Mm.Proofs.GetPte
import Ucore.Mm.Proofs.PageRef

namespace Ucore.Mm

variable {M : PmmManager} {roots : Finset Nat} {lost : Set Nat}
  {s s' : Machine M} {r f la page perm : Nat} {b : Bool}

-- ======================================================= page_insert

/-- `page_remove_pte` writes no word but the entry's. -/
theorem pageRemovePte_mem {ptep : Nat × Nat}
    (h : pageRemovePte s ptep = some s') {g j : Nat}
    (hne : ¬ (g = ptep.1 ∧ j = ptep.2)) : s'.mem g j = s.mem g j := by
  unfold pageRemovePte at h
  by_cases hv : hasFlag (s.word ptep) pteV
  · rw [if_pos hv] at h
    cases hp : pte2page (s.word ptep) with
    | none =>
        rw [hp] at h
        cases h
    | some page =>
        rw [hp] at h
        cases h
        rw [setWord_mem, if_neg hne]
        by_cases hz : pageRef (pageRefDec s page) page = 0
        · rw [if_pos hz]
          rfl
        · rw [if_neg hz]
          rfl
  · rw [if_neg hv] at h
    cases h
    rfl

/-- Where the page table is there, `page_insert` writes no word but the
entry's. -/
theorem pageInsert_mem (h : Forest roots lost s)
    (hr : r ∈ roots) (hla : pdx1 la < 511)
    (hf : tableAt roots s r [pdx0 la, pdx1 la] = some f)
    (hrun : pageInsert s r page la perm = some (b, s')) {g j : Nat}
    (hne : ¬ (g = f ∧ j = ptx la)) : s'.mem g j = s.mem g j := by
  obtain ⟨o, s₁, hget, -, hptep, hnull, hkept, -⟩ := getPte_create h hr hla
  have hsome : tableAt roots s r [pdx0 la, pdx1 la] ≠ none := by
    rw [hf]
    exact fun h => by cases h
  obtain rfl := hkept hsome
  unfold pageInsert at hrun
  rw [hget] at hrun
  cases o with
  | none => exact absurd (hnull rfl).2 hsome
  | some ptep =>
      obtain ⟨f', rfl, hf'⟩ := hptep ptep rfl
      obtain rfl : f' = f := Option.some.inj (hf'.symm.trans hf)
      dsimp only at hrun
      by_cases hv : hasFlag ((pageRefInc s₁ page).word (f', ptx la)) pteV
      · rw [if_pos hv] at hrun
        cases hp : pte2page ((pageRefInc s₁ page).word (f', ptx la)) with
        | none =>
            rw [hp] at hrun
            cases hrun
        | some p =>
            rw [hp] at hrun
            dsimp only at hrun
            by_cases heq : p = page
            · rw [if_pos heq] at hrun
              cases hrun
              rw [setWord_mem, if_neg hne]
              rfl
            · rw [if_neg heq] at hrun
              cases hrem : pageRemovePte (pageRefInc s₁ page) (f', ptx la) with
              | none =>
                  rw [hrem] at hrun
                  cases hrun
              | some s₂ =>
                  rw [hrem] at hrun
                  cases hrun
                  rw [setWord_mem, if_neg hne]
                  exact pageRemovePte_mem hrem hne
      · rw [if_neg hv] at hrun
        cases hrun
        rw [setWord_mem, if_neg hne]
        rfl

/-- So every table stays where it is. -/
theorem pageInsert_tables (h : Forest roots lost s) (hr : r ∈ roots) (hla : pdx1 la < 511)
    (hf : tableAt roots s r [pdx0 la, pdx1 la] ≠ none)
    (hrun : pageInsert s r page la perm = some (b, s')) (r' : Nat)
    (q : List Nat) : tableAt roots s' r' q = tableAt roots s r' q := by
  obtain ⟨f, hf⟩ := Option.ne_none_iff_exists'.1 hf
  apply tableAt_congr
  intro r₁ q₁ f₁ hf₁ hlen
  funext j
  apply pageInsert_mem h hr hla hf hrun
  intro heq
  rw [heq.1] at hf₁
  have hpath := (h.inj hf hf₁).2
  rw [← hpath] at hlen
  exact absurd hlen (by simp)

/-- A mapping that is new, or that was there already, frees no page. -/
theorem pageInsert_free (h : Forest roots lost s) (hr : r ∈ roots)
    (hla : pdx1 la < 511)
    (hf : tableAt roots s r [pdx0 la, pdx1 la] = some f)
    (hleaf : leafAt roots s (slotOf r la) = none
      ∨ Managed page ∧ leafAt roots s (slotOf r la) = some page)
    (hrun : pageInsert s r page la perm = some (b, s')) :
    s'.free = s.free := by
  obtain ⟨o, s₁, hget, -, hptep, hnull, hkept, -⟩ := getPte_create h hr hla
  have hsome : tableAt roots s r [pdx0 la, pdx1 la] ≠ none := by
    rw [hf]
    exact fun h => by cases h
  obtain rfl := hkept hsome
  unfold pageInsert at hrun
  rw [hget] at hrun
  cases o with
  | none => exact absurd (hnull rfl).2 hsome
  | some ptep =>
      obtain ⟨f', rfl, hf'⟩ := hptep ptep rfl
      obtain rfl : f' = f := Option.some.inj (hf'.symm.trans hf)
      have hword : leafAt roots s₁ (slotOf r la)
          = frameOf ((pageRefInc s₁ page).word (f', ptx la)) := by
        simp only [leafAt, pteAt, slotOf, hf]
        rfl
      rw [hword] at hleaf
      dsimp only at hrun
      rcases hleaf with hleaf | ⟨hpage, hleaf⟩
      · rw [if_neg (frameOf_eq_none_iff.1 hleaf)] at hrun
        cases hrun
        rfl
      · have hv : hasFlag ((pageRefInc s₁ page).word (f', ptx la)) pteV := by
          by_contra hno
          rw [frameOf_eq_none_iff.2 hno] at hleaf
          cases hleaf
        rw [if_pos hv, hpage.pte2page_eq hleaf] at hrun
        dsimp only at hrun
        rw [if_pos rfl] at hrun
        cases hrun
        rfl

-- ================================================== a copy of a page

/-- New contents for a user page. -/
theorem overwrite {hold : Nat → Nat} (h : RefInv roots lost hold s)
    (hpage : UserPage roots lost s page)
    (hmem : ∀ p, p ≠ page → s'.mem p = s.mem p) (href : s'.ref = s.ref)
    (hpmm : s'.pmm = s.pmm) :
    RefInv roots lost hold s'
      ∧ ∀ x, pteAt roots s' x = pteAt roots s x := by
  have htables : ∀ r path f, tableAt roots s r path = some f →
      s'.mem f = s.mem f := by
    intro r path f hf
    apply hmem
    rintro rfl
    exact hpage.2.2 (Or.inr ⟨r, path, hf⟩)
  have hfree : s'.free = s.free := by
    rw [Machine.free, Machine.free, hpmm]
  refine ⟨h.congr htables ?_ ?_ ?_, pteAt_congr htables⟩
  · intro p hp
    rw [hfree] at hp
    exact Or.inl hp
  · intro p hp
    rw [href]
    exact h.ref_eq hp
  · intro p hp
    have hp' := h.held hp
    rw [hfree]
    exact ⟨hp', hp'.2.1⟩

/-- From `s` to `s'` a copy of the page `f` was mapped at `la`: a page that
was free holds what `f` holds, and nothing but its entry is new. -/
structure Installed (roots : Finset Nat) (lost : Set Nat)
    (r la f perm page : Nat) (s s' : Machine M) : Prop where
  inv : RefInv roots lost noHold s'
  fresh : page ∈ s.free
  tables : ∀ r' q, tableAt roots s' r' q = tableAt roots s r' q
  pte : pteAt roots s' (slotOf r la) = pteCreate page (pteV ||| perm)
  others : ∀ x, x ≠ slotOf r la → pteAt roots s' x = pteAt roots s x
  copied : s'.mem page = s.mem f
  mem : ∀ g, g ≠ page → (∀ q, tableAt roots s r q ≠ some g) →
    s'.mem g = s.mem g
  free : leafAt roots s (slotOf r la) = none → s'.free = s.free.erase page
  free_sub : s.free.erase page ⊆ s'.free

/-- A page is copied to an address whose page table is there. -/
theorem install_copy {s₁ : Machine M} (h : RefInv roots lost noHold s)
    (hr : r ∈ roots) (hla : pdx1 la < 511)
    (hpt : tableAt roots s r [pdx0 la, pdx1 la] ≠ none)
    (hf : UserPage roots lost s f) (hperm : perm < 2 ^ 10)
    (halloc : allocPage s = some (page, s₁)) :
    ∃ s', pageInsert (copyPage s₁ page f) r page la perm = some (true, s')
      ∧ Installed roots lost r la f perm page s s' := by
  obtain ⟨hin, hfree₁, hmem₁, -, -⟩ := allocPage_spec halloc
  obtain ⟨h₁, hpage₁, -, -⟩ := h.allocPage halloc
  have hpf : f ≠ page := fun heq => hf.2.1 (heq ▸ hin)
  let s₂ := copyPage s₁ page f
  have hmem₂ : ∀ g, g ≠ page → s₂.mem g = s.mem g := by
    intro g hg
    rw [← hmem₁]
    exact Function.update_of_ne hg _ _
  obtain ⟨h₂, hpte₂⟩ : RefInv roots lost noHold s₂
      ∧ ∀ x, pteAt roots s₂ x = pteAt roots s₁ x :=
    overwrite h₁ hpage₁ (fun p hp => Function.update_of_ne hp _ _) rfl rfl
  have htable₂ : ∀ r' q, tableAt roots s₂ r' q = tableAt roots s r' q := by
    apply tableAt_congr
    intro r' q g hg _
    apply hmem₂
    intro heq
    exact h.forest.notFree hg (heq ▸ hin)
  have hpage₂ : UserPage roots lost s₂ page := by
    refine ⟨hpage₁.1, hpage₁.2.1, ?_⟩
    intro htable
    rcases htable with hlost | ⟨r', q, hq⟩
    · exact h.forest.lostNotFree hlost hin
    · rw [htable₂] at hq
      exact h.forest.notFree hq hin
  have hpt₂ : tableAt roots s₂ r [pdx0 la, pdx1 la] ≠ none := by
    rwa [htable₂]
  obtain ⟨pt, hpt₂'⟩ := Option.ne_none_iff_exists'.1 hpt₂
  obtain ⟨b, s', hrun, hinv, hedits, -, hpte, -, hkept⟩ :=
    pageInsert_spec h₂ hr hla hpage₂ hperm
  obtain ⟨rfl, hsub⟩ := hkept hpt₂
  have hsame : ∀ x, pteAt roots s₂ x = pteAt roots s x := by
    intro x
    rw [hpte₂]
    exact pteAt_congr (fun _ _ g _ => by rw [hmem₁]) x
  have htable : ∀ r' q, tableAt roots s' r' q = tableAt roots s r' q := by
    intro r' q
    rw [pageInsert_tables h₂.forest hr hla hpt₂ hrun, htable₂]
  have hpagePt : page ≠ pt := by
    intro heq
    subst heq
    exact hpage₂.2.2 (Or.inr ⟨r, _, hpt₂'⟩)
  have hwrite : ∀ g, g ≠ pt → s'.mem g = s₂.mem g := by
    intro g hg
    funext j
    exact pageInsert_mem h₂.forest hr hla hpt₂' hrun fun heq => hg heq.1
  refine ⟨s', hrun, hinv, hin, htable, hpte rfl, ?_, ?_, ?_, ?_, ?_⟩
  · intro x hx
    rw [hedits.pte_eq hx, hsame]
  · rw [hwrite page hpagePt, ← hmem₁]
    exact Function.update_self page _ _
  · intro g hg hne
    rw [hwrite g, hmem₂ g hg]
    intro heq
    rw [htable₂, ← heq] at hpt₂'
    exact hne _ hpt₂'
  · intro hleaf
    rw [pageInsert_free h₂.forest hr hla hpt₂' (Or.inl ?_) hrun]
    · exact hfree₁
    · rw [leafAt, hsame]
      exact hleaf
  · intro g hg
    apply hsub
    rw [← hfree₁] at hg
    exact hg

end Ucore.Mm
