/-
What the copy-on-write `copy_range` does to two address spaces: every page
of the range that the source maps is mapped in both afterwards, under one
entry without `PTE_W`, and nothing else changes (`Shared`).
-/
import Ucore.Cow.Vmm
import Ucore.Mm.Proofs.AddressSpace
import Ucore.Mm.Proofs.Install

namespace Ucore.Cow

open Mm

variable {M : PmmManager} {roots : Finset Nat} {lost : Set Nat}
  {s s' : Machine M}

-- ================================================== the shared entry

theorem sharePerm_lt (pte : Nat) : sharePerm pte < 2 ^ 10 := by
  have hand : clearFlag (pte &&& pteUser) pteW ≤ pteUser :=
    Nat.and_le_left.trans Nat.and_le_right
  exact Nat.or_lt_two_pow (Nat.lt_of_le_of_lt hand (by decide)) (by decide)

/-- The entry under which `copy_range` maps a page in both address
spaces. -/
def sharedPte (page pte : Nat) : Nat :=
  pteCreate page (pteV ||| sharePerm pte)

theorem sharedPte_type_lt (pte : Nat) : pteV ||| sharePerm pte < 2 ^ 10 :=
  Nat.or_lt_two_pow (by decide) (sharePerm_lt pte)

theorem testBit_sharePerm {pte k : Nat} (hk0 : k ≠ 0) :
    (pteV ||| sharePerm pte).testBit k
      = (pte.testBit k && pteUser.testBit k
          && (2 ^ 64 - 1 - pteW).testBit k) := by
  have hv : pteV.testBit k = false := by
    rw [show pteV = 2 ^ 0 from rfl, Nat.testBit_two_pow]
    exact decide_eq_false (Ne.symm hk0)
  rw [sharePerm, clearFlag, Nat.testBit_or, Nat.testBit_or, Nat.testBit_and,
    Nat.testBit_and, hv, Bool.false_or, Bool.or_false]

/-- The shared entry permits user reads if the old one did. -/
theorem hasFlag_sharedPte_pteR {page pte : Nat} :
    hasFlag (sharedPte page pte) pteR ↔ hasFlag pte pteR := by
  have hu : pteUser.testBit 1 = true := by decide
  have hw : (2 ^ 64 - 1 - pteW).testBit 1 = true := by decide
  rw [hasFlag_pteR, hasFlag_pteR, sharedPte,
    testBit_pteCreate (by decide) (by decide), testBit_sharePerm (by decide),
    hu, hw, Bool.and_true, Bool.and_true]

theorem hasFlag_sharedPte_pteU {page pte : Nat} :
    hasFlag (sharedPte page pte) pteU ↔ hasFlag pte pteU := by
  have hu : pteUser.testBit 4 = true := by decide
  have hw : (2 ^ 64 - 1 - pteW).testBit 4 = true := by decide
  rw [hasFlag_pteU, hasFlag_pteU, sharedPte,
    testBit_pteCreate (by decide) (by decide), testBit_sharePerm (by decide),
    hu, hw, Bool.and_true, Bool.and_true]

/-- The shared entry permits no writes. -/
theorem not_hasFlag_sharedPte_pteW {page pte : Nat} :
    ¬ hasFlag (sharedPte page pte) pteW := by
  have hw : (2 ^ 64 - 1 - pteW).testBit 2 = false := by decide
  rw [hasFlag_pteW, sharedPte, testBit_pteCreate (by decide) (by decide),
    testBit_sharePerm (by decide), hw, Bool.and_false]
  exact Bool.false_ne_true

theorem frameOf_sharedPte {page pte : Nat} (hp : Managed page) :
    frameOf (sharedPte page pte) = some page :=
  frameOf_pteCreate hp.lt (sharedPte_type_lt pte)

-- ========================================================== one page

section CopyRange

variable {dst src last start f : Nat}

/-- From `s` to `s'` the pages of the addresses `A` that `src` maps were
shared with `dst`. -/
structure Shared (roots : Finset Nat) (lost : Set Nat) (dst src : Nat)
    (A : Nat → Prop) (s s' : Machine M) : Prop where
  inv : RefInv roots lost noHold s'
  edits : Edits roots lost (fun x => SlotAt src A x ∨ SlotAt dst A x) s s'
  shared : ∀ {va f}, A va → leafAt roots s (slotOf src va) = some f →
    pteAt roots s' (slotOf src va)
        = sharedPte f (pteAt roots s (slotOf src va))
      ∧ pteAt roots s' (slotOf dst va)
        = sharedPte f (pteAt roots s (slotOf src va))

theorem Shared.refl (h : RefInv roots lost noHold s) {A : Nat → Prop}
    (hA : ∀ va, ¬ A va) : Shared roots lost dst src A s s :=
  ⟨h, Edits.refl _ s, fun hva => absurd hva (hA _)⟩

/-- What was not shared in the source is as it was. -/
theorem Shared.source {A : Nat → Prop} (h : Shared roots lost dst src A s s')
    (hne : dst ≠ src) (hA : ∀ va, A va → va < usertop) {va : Nat}
    (hva : va < usertop) (hout : ∀ vb, A vb → vb / pgsize ≠ va / pgsize) :
    pteAt roots s' (slotOf src va) = pteAt roots s (slotOf src va) := by
  apply h.edits.pte_eq
  rintro (⟨vb, hb, hx⟩ | ⟨vb, hb, hx⟩)
  · exact slotOf_ne hva (hA vb hb) (hout vb hb).symm hx
  · exact hne (congrArg Prod.fst hx).symm

/-- Two sets of addresses without a common page. -/
theorem Shared.trans {A B : Nat → Prop} {s₁ s₂ s₃ : Machine M}
    (hdisj : ∀ a b, A a → B b → a / pgsize ≠ b / pgsize)
    (hA : ∀ va, A va → va < usertop) (hB : ∀ va, B va → va < usertop)
    (hne : dst ≠ src) (h : Shared roots lost dst src A s₁ s₂)
    (h' : Shared roots lost dst src B s₂ s₃) :
    Shared roots lost dst src (fun va => A va ∨ B va) s₁ s₃ := by
  refine ⟨h'.inv, ?_, ?_⟩
  · refine (h.edits.weaken ?_).trans (h'.edits.weaken ?_)
    · rintro x (⟨va, hva, hx⟩ | ⟨va, hva, hx⟩)
      · exact Or.inl ⟨va, Or.inl hva, hx⟩
      · exact Or.inr ⟨va, Or.inl hva, hx⟩
    · rintro x (⟨va, hva, hx⟩ | ⟨va, hva, hx⟩)
      · exact Or.inl ⟨va, Or.inr hva, hx⟩
      · exact Or.inr ⟨va, Or.inr hva, hx⟩
  · rintro va f (hva | hva) hleaf
    · obtain ⟨hsrc, hdst⟩ := h.shared hva hleaf
      refine ⟨?_, ?_⟩
      · rw [← hsrc]
        exact h'.source hne hB (hA va hva)
          fun vb hb => (hdisj va vb hva hb).symm
      · rw [← hdst]
        apply h'.edits.pte_eq
        rintro (⟨vb, hb, hx⟩ | ⟨vb, hb, hx⟩)
        · exact hne (congrArg Prod.fst hx)
        · exact slotOf_ne (hA va hva) (hB vb hb) (hdisj va vb hva hb) hx
    · have hkeep : pteAt roots s₂ (slotOf src va)
          = pteAt roots s₁ (slotOf src va) :=
        h.source hne hA (hB va hva) fun vb hb => hdisj vb va hb hva
      have hleaf' : leafAt roots s₂ (slotOf src va) = some f := by
        rw [leafAt, hkeep]
        exact hleaf
      have hboth := h'.shared hva hleaf'
      rw [hkeep] at hboth
      exact hboth

theorem Shared.congr {A B : Nat → Prop} (h : Shared roots lost dst src A s s')
    (hAB : ∀ va, A va ↔ B va) : Shared roots lost dst src B s s' := by
  have heq : A = B := funext fun va => propext (hAB va)
  exact heq ▸ h

/-- A page that was shared under one slot each is shared over its
addresses. -/
theorem Shared.page (hstart : start % pgsize = 0)
    (hinv : RefInv roots lost noHold s')
    (he : Edits roots lost
      (fun x => x = slotOf src start ∨ x = slotOf dst start) s s')
    (hleaf : leafAt roots s (slotOf src start) = some f)
    (hsrc : pteAt roots s' (slotOf src start)
      = sharedPte f (pteAt roots s (slotOf src start)))
    (hdst : pteAt roots s' (slotOf dst start)
      = sharedPte f (pteAt roots s (slotOf src start))) :
    Shared roots lost dst src (InRange start (start + pgsize)) s s' := by
  have hpg : 0 < pgsize := by decide
  refine ⟨hinv, he.weaken ?_, ?_⟩
  · rintro x (rfl | rfl)
    · exact Or.inl ⟨start, ⟨Nat.le_refl _, by omega⟩, rfl⟩
    · exact Or.inr ⟨start, ⟨Nat.le_refl _, by omega⟩, rfl⟩
  · rintro va f' ⟨h1, h2⟩ hleaf'
    have hpage : va / pgsize = start / pgsize := by
      unfold pgsize at hstart h2 ⊢
      omega
    rw [slotOf_eq hpage] at hleaf' ⊢
    rw [slotOf_eq (r := dst) hpage]
    rw [hleaf] at hleaf'
    cases hleaf'
    exact ⟨hsrc, hdst⟩

/-- From `s` to `s'` the page `f` was shared at `start`, and `page` was
allocated for nothing: only the two entries of the address are new. -/
structure PageShared (roots : Finset Nat) (lost : Set Nat)
    (dst src start f page : Nat) (s s' : Machine M) : Prop where
  inv : RefInv roots lost noHold s'
  leaked : page ∈ s.free
  tables : ∀ r q, tableAt roots s' r q = tableAt roots s r q
  source : pteAt roots s' (slotOf src start)
    = sharedPte f (pteAt roots s (slotOf src start))
  target : pteAt roots s' (slotOf dst start)
    = sharedPte f (pteAt roots s (slotOf src start))
  edits : Edits roots lost
    (fun x => x = slotOf src start ∨ x = slotOf dst start) s s'
  free : leafAt roots s (slotOf dst start) = none →
    s'.free = s.free.erase page
  free_sub : s.free.erase page ⊆ s'.free

/-- `copy_range` shares a page whose tables are there on both sides. -/
theorem sharePage {page : Nat} {s₁ : Machine M}
    (h : RefInv roots lost noHold s) (hd : dst ∈ roots) (hs : src ∈ roots)
    (hne : dst ≠ src) (hla : pdx1 start < 511)
    (hleaf : leafAt roots s (slotOf src start) = some f)
    (hdt : tableAt roots s dst [pdx0 start, pdx1 start] ≠ none)
    (halloc : allocPage s = some (page, s₁)) :
    ∃ s', copyPte s dst src (pteAt roots s (slotOf src start)) start true
        = some s'
      ∧ PageShared roots lost dst src start f page s s' := by
  have hf := h.mapped (slotOf_mem hs hla) hleaf
  have hst : tableAt roots s src [pdx0 start, pdx1 start] ≠ none := by
    intro hnone
    simp only [leafAt, pteAt, slotOf, hnone, frameOf_zero] at hleaf
    cases hleaf
  obtain ⟨hin, hfree₁, hmem₁, -, -⟩ := allocPage_spec halloc
  obtain ⟨h₁, -, -, -⟩ := h.allocPage halloc
  have hpte₁ : ∀ x, pteAt roots s₁ x = pteAt roots s x :=
    pteAt_congr fun _ _ g _ => by rw [hmem₁]
  have htable₁ : ∀ r path,
      tableAt roots s₁ r path = tableAt roots s r path :=
    tableAt_of_mem hmem₁
  have hleaf₁ : leafAt roots s₁ (slotOf src start) = some f := by
    rw [leafAt, hpte₁]
    exact hleaf
  have hf₁ := h₁.mapped (slotOf_mem hs hla) hleaf₁
  have hperm := sharePerm_lt (pteAt roots s (slotOf src start))
  -- the source's entry is written first, then the destination's
  have hst₁ : tableAt roots s₁ src [pdx0 start, pdx1 start] ≠ none := by
    rwa [htable₁]
  obtain ⟨sp, hsp⟩ := Option.ne_none_iff_exists'.1 hst₁
  obtain ⟨b₂, s₂, hrun₂, h₂, he₂, -, hpte₂, -, hkept₂⟩ :=
    pageInsert_spec h₁ hs hla hf₁ hperm
  obtain ⟨rfl, -⟩ := hkept₂ hst₁
  have hfree₂ : s₂.free = s₁.free :=
    pageInsert_free h₁.forest hs hla hsp (Or.inr ⟨hf.1, hleaf₁⟩) hrun₂
  have htable₂ : ∀ r path,
      tableAt roots s₂ r path = tableAt roots s r path := by
    intro r path
    rw [pageInsert_tables h₁.forest hs hla hst₁ hrun₂, htable₁]
  have hdt₂ : tableAt roots s₂ dst [pdx0 start, pdx1 start] ≠ none := by
    rwa [htable₂]
  obtain ⟨dp, hdp⟩ := Option.ne_none_iff_exists'.1 hdt₂
  have hf₂ : UserPage roots lost s₂ f := by
    refine h₂.mapped (slotOf_mem hs hla) ?_
    rw [leafAt, hpte₂ rfl]
    exact frameOf_sharedPte hf.1
  obtain ⟨b₃, s₃, hrun₃, h₃, he₃, -, hpte₃, -, hkept₃⟩ :=
    pageInsert_spec h₂ hd hla hf₂ hperm
  obtain ⟨rfl, hsub₃⟩ := hkept₃ hdt₂
  have hslots : slotOf src start ≠ slotOf dst start :=
    fun heq => hne (congrArg Prod.fst heq).symm
  refine ⟨s₃, ?_, h₃, hin, ?_, ?_, hpte₃ rfl, ?_, ?_, ?_⟩
  · unfold copyPte
    rw [hf.1.pte2page_eq hleaf]
    dsimp only
    rw [halloc]
    simp only [if_true, hrun₂, hrun₃]
  · intro r path
    rw [pageInsert_tables h₂.forest hd hla hdt₂ hrun₃, htable₂]
  · rw [he₃.pte_eq hslots]
    exact hpte₂ rfl
  · have he₁ : Edits roots lost
        (fun x => x = slotOf src start ∨ x = slotOf dst start) s s₁ :=
      (Edits.refl _ s).of_mem hmem₁
    exact (he₁.trans (he₂.weaken fun _ => Or.inl)).trans
      (he₃.weaken fun _ => Or.inr)
  · intro hempty
    rw [pageInsert_free h₂.forest hd hla hdp (Or.inl ?_) hrun₃, hfree₂,
      hfree₁]
    rw [leafAt, he₂.pte_eq hslots.symm, hpte₁]
    exact hempty
  · rw [← hfree₁, ← hfree₂]
    exact hsub₃

/-- It fails only when no page is free. -/
theorem copyPte_spec (h : RefInv roots lost noHold s) (hd : dst ∈ roots)
    (hs : src ∈ roots) (hne : dst ≠ src) (hla : pdx1 start < 511)
    (hstart : start % pgsize = 0)
    (hleaf : leafAt roots s (slotOf src start) = some f)
    (hdt : tableAt roots s dst [pdx0 start, pdx1 start] ≠ none) :
    (∃ s', copyPte s dst src (pteAt roots s (slotOf src start)) start true
        = some s'
      ∧ Shared roots lost dst src (InRange start (start + pgsize)) s s'
      ∧ s.free.card ≤ s'.free.card + 1)
    ∨ (copyPte s dst src (pteAt roots s (slotOf src start)) start true = none
      ∧ s.free = ∅) := by
  cases halloc : allocPage s with
  | none =>
      have hf := h.mapped (slotOf_mem hs hla) hleaf
      refine Or.inr ⟨?_, allocPage_none halloc⟩
      unfold copyPte
      rw [hf.1.pte2page_eq hleaf]
      dsimp only
      rw [halloc]
  | some a =>
      obtain ⟨page, s₁⟩ := a
      obtain ⟨s', hrun, hpage⟩ :=
        sharePage h hd hs hne hla hleaf hdt halloc
      refine Or.inl ⟨s', hrun, Shared.page hstart hpage.inv hpage.edits hleaf
        hpage.source hpage.target, ?_⟩
      have hcard := Finset.card_erase_add_one hpage.leaked
      have hle := Finset.card_le_card hpage.free_sub
      omega

/-- Every page of a range is mapped. -/
def Full (roots : Finset Nat) (s : Machine M) (r lo hi : Nat) : Prop :=
  ∀ va, lo ≤ va → va < hi → leafAt roots s (slotOf r va) ≠ none

/-- How the loop ends over a range of `n` pages: it shared them all, or
there were not three free pages for each of them. -/
def Outcome (roots : Finset Nat) (lost : Set Nat) (dst src lo hi : Nat)
    (s : Machine M) (r : Option (Bool × Machine M)) : Prop :=
  (∃ s', r = some (true, s')
      ∧ Shared roots lost dst src (InRange lo hi) s s'
      ∧ s.free.card ≤ s'.free.card + 3 * ((hi - lo) / pgsize))
    ∨ (∀ s', r ≠ some (true, s')) ∧ s.free.card < 3 * ((hi - lo) / pgsize)

/-- Growing tables before sharing is part of sharing. -/
theorem Shared.grown {A : Nat → Prop} {s₁ s₂ : Machine M}
    (g : Grown roots lost s s₁) (h : Shared roots lost dst src A s₁ s₂) :
    Shared roots lost dst src A s s₂ := by
  refine ⟨h.inv, (g.edits _).trans h.edits, ?_⟩
  intro va f hva hleaf
  have hleaf₁ : leafAt roots s₁ (slotOf src va) = some f := by
    rw [leafAt, g.pte_eq]
    exact hleaf
  have hboth := h.shared hva hleaf₁
  rw [g.pte_eq] at hboth
  exact hboth

/-- The loop over a fully mapped range never meets the entry it would stay
at forever. The induction is on the fuel, one round for each page. -/
theorem copyLoop_spec (hd : dst ∈ roots) (hs : src ∈ roots)
    (hne : dst ≠ src) (htop : last ≤ usertop) (hlast : last % pgsize = 0) :
    ∀ {fuel : Nat} {s : Machine M} {start : Nat}, RefInv roots lost noHold s →
      start % pgsize = 0 → start < last → last - start ≤ fuel * pgsize →
      Full roots s src start last →
      Outcome roots lost dst src start last s
        (copyLoop dst src last true fuel s start) := by
  intro fuel
  induction fuel with
  | zero =>
      intro s start _ _ hlt hfuel
      omega
  | succ fuel ih =>
      intro s start h hstart hlt hfuel hfull
      have hla : pdx1 start < 511 := pdx1_user (by omega)
      have hpages : (last - start) / pgsize
          = (last - (start + pgsize)) / pgsize + 1 := by
        unfold pgsize at *
        omega
      have hone : 1 ≤ (last - start) / pgsize := by
        rw [hpages]
        exact Nat.le_add_left 1 _
      obtain ⟨f, hleaf⟩ := Option.ne_none_iff_exists'.mp
        (hfull start (Nat.le_refl _) hlt)
      obtain ⟨pt, hpt⟩ : ∃ pt,
          tableAt roots s src [pdx0 start, pdx1 start] = some pt := by
        cases hpt : tableAt roots s src [pdx0 start, pdx1 start] with
        | some pt => exact ⟨pt, rfl⟩
        | none =>
            simp only [leafAt, pteAt, slotOf, hpt, frameOf_zero] at hleaf
            cases hleaf
      have hword : ∀ {t : Machine M},
          tableAt roots t src [pdx0 start, pdx1 start] = some pt →
          t.word (pt, ptx start) = pteAt roots t (slotOf src start) := by
        intro t ht
        simp only [pteAt, slotOf, ht]
        rfl
      have hv : hasFlag (s.word (pt, ptx start)) pteV := by
        by_contra hno
        rw [hword hpt] at hno
        rw [leafAt, frameOf_eq_none_iff.mpr hno] at hleaf
        cases hleaf
      obtain ⟨o, s₁, hget, hgrown, hptep, hnull, -, hcard₁⟩ :=
        getPte_create h.forest hd hla
      have h₁ := h.grown hgrown
      unfold copyLoop
      rw [getPte_look h.forest hs hla, hpt]
      dsimp only [Option.map_some]
      rw [if_pos hv, hget]
      cases o with
      | none =>
          -- no page for the destination's tables
          obtain ⟨hempty, -⟩ := hnull rfl
          refine Or.inr ⟨fun s' heq => (by cases heq), ?_⟩
          rw [hempty, Finset.card_empty] at hcard₁
          omega
      | some ptep =>
          obtain ⟨g, rfl, hg⟩ := hptep ptep rfl
          dsimp only
          rw [hword (hgrown.mono hpt)]
          have hleaf₁ : leafAt roots s₁ (slotOf src start) = some f := by
            rw [leafAt, hgrown.pte_eq]
            exact hleaf
          have hdt : tableAt roots s₁ dst [pdx0 start, pdx1 start] ≠ none := by
            rw [hg]
            exact fun h => by cases h
          rcases copyPte_spec h₁ hd hs hne hla hstart hleaf₁ hdt with
            ⟨s₂, hrun₂, hshared₂, hcard₂⟩ | ⟨hfail, hempty⟩
          · have hshared := hshared₂.grown hgrown
            have hbelow : ∀ va, InRange start (start + pgsize) va →
                va < usertop := by
              rintro va ⟨-, h2⟩
              unfold pgsize usertop at *
              omega
            rw [hrun₂]
            dsimp only
            by_cases hmore : start + pgsize < last
            · rw [if_pos ⟨by unfold pgsize; omega, hmore⟩]
              have hstart' : (start + pgsize) % pgsize = 0 := by
                unfold pgsize at hstart ⊢
                omega
              have hfuel' : last - (start + pgsize) ≤ fuel * pgsize := by
                unfold pgsize at *
                omega
              have hfull' : Full roots s₂ src (start + pgsize) last := by
                intro va h1 h2
                rw [leafAt, hshared.source hne hbelow (by omega)]
                · exact hfull va (by omega) h2
                · rintro vb ⟨-, hb2⟩
                  unfold pgsize at hstart hb2 h1 ⊢
                  omega
              rcases ih hshared₂.inv hstart' hmore hfuel' hfull' with
                ⟨s₃, hrun₃, hshared₃, hcard₃⟩ | ⟨hfail, hfew⟩
              · refine Or.inl ⟨s₃, hrun₃, (hshared.trans ?_ hbelow ?_ hne
                  hshared₃).congr ?_, by omega⟩
                · rintro a b ⟨-, ha⟩ ⟨hb, -⟩
                  unfold pgsize at hstart ha hb ⊢
                  omega
                · rintro va ⟨-, h2⟩
                  omega
                · intro va
                  unfold InRange
                  omega
              · exact Or.inr ⟨hfail, by omega⟩
            · rw [if_neg fun hc => hmore hc.2]
              have heq : start + pgsize = last := by
                unfold pgsize at *
                omega
              rw [heq] at hshared
              exact Or.inl ⟨s₂, rfl, hshared, by omega⟩
          · rw [hfail]
            refine Or.inr ⟨fun s' heq => (by cases heq), ?_⟩
            rw [hempty, Finset.card_empty] at hcard₁
            omega

/-- `copy_range` with `share` over a fully mapped range. -/
theorem copyRange_spec {fuel : Nat} (h : RefInv roots lost noHold s)
    (hd : dst ∈ roots) (hs : src ∈ roots) (hne : dst ≠ src)
    (hstart : start % pgsize = 0) (hlast : last % pgsize = 0)
    (hua : userAccess start last) (hfuel : last - start ≤ fuel * pgsize)
    (hfull : Full roots s src start last) :
    Outcome roots lost dst src start last s
      (copyRange fuel s dst src start last true) := by
  unfold copyRange
  rw [if_pos ⟨hstart, hlast, hua⟩]
  exact copyLoop_spec hd hs hne hua.2.2 hlast h hstart hua.2.1 hfuel hfull

end CopyRange

end Ucore.Cow
