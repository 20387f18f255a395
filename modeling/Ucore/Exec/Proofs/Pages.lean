/-
Pages of a program, allocated one after the other.

`load_icode` takes pages from the allocator, maps them below a root that is
its own and fills them. What was there before stays: the entries outside the
slots it maps, and the pages that are in use (`Grows`). The calls it makes
are shown to do no more than that: `kmalloc`, `setup_pgdir`,
`pgdir_alloc_page` at an address that is not mapped, and a store into a page
that was allocated on the way.
-/
import Ucore.Exec.LoadIcode
import Ucore.Mm.Proofs.AddressSpace
import Ucore.Mm.Proofs.Install
import Ucore.Mm.Proofs.PageMap

namespace Ucore.Exec

open Mm

variable {M : PmmManager} {roots : Finset Nat} {lost : Set Nat}
  {s s' s'' : Machine M} {X Y : Slot → Prop} {r la page perm : Nat}

-- =========================================================== growing

/-- From `s` to `s'` pages were allocated, and entries changed in the slots
`X` only. -/
structure Grows (roots : Finset Nat) (lost : Set Nat) (X : Slot → Prop)
    (s s' : Machine M) : Prop where
  inv : RefInv roots lost noHold s'
  pte : ∀ x, ¬ X x → pteAt roots s' x = pteAt roots s x
  user : ∀ p, UserPage roots lost s p →
    UserPage roots lost s' p ∧ s'.mem p = s.mem p
  free : s'.free ⊆ s.free

theorem Grows.refl (h : RefInv roots lost noHold s) :
    Grows roots lost X s s :=
  ⟨h, fun _ _ => rfl, fun _ hp => ⟨hp, rfl⟩, Finset.Subset.refl _⟩

theorem Grows.weaken (h : Grows roots lost X s s') (hXY : ∀ x, X x → Y x) :
    Grows roots lost Y s s' :=
  ⟨h.inv, fun x hx => h.pte x fun hX => hx (hXY x hX), h.user, h.free⟩

theorem Grows.trans (h : Grows roots lost X s s')
    (h' : Grows roots lost X s' s'') : Grows roots lost X s s'' := by
  refine ⟨h'.inv, ?_, ?_, h'.free.trans h.free⟩
  · intro x hx
    rw [h'.pte x hx, h.pte x hx]
  · intro p hp
    obtain ⟨hp', hmem⟩ := h.user p hp
    obtain ⟨hp'', hmem'⟩ := h'.user p hp'
    exact ⟨hp'', hmem'.trans hmem⟩

/-- What follows without a store changes no page. -/
theorem Grows.of_mem (h : Grows roots lost X s s')
    (hinv : RefInv roots lost noHold s'') (hmem : s''.mem = s'.mem)
    (hfree : s''.free ⊆ s.free) : Grows roots lost X s s'' := by
  refine ⟨hinv, fun x hx => ?_, fun p hp => ?_, hfree⟩
  · rw [← h.pte x hx]
    exact pteAt_congr (fun _ _ _ _ => by rw [hmem]) x
  · obtain ⟨hp', hsame⟩ := h.user p hp
    refine ⟨⟨hp'.1, fun hin => hp.2.1 (hfree hin), ?_⟩, by rw [hmem, hsame]⟩
    intro hist
    apply hp'.2.2
    rcases hist with hlost | ⟨r, path, hf⟩
    · exact Or.inl hlost
    · rw [tableAt_of_mem hmem] at hf
      exact Or.inr ⟨r, path, hf⟩

theorem Grows.leaf (h : Grows roots lost X s s') {x : Slot} (hx : ¬ X x) :
    leafAt roots s' x = leafAt roots s x := by
  rw [leafAt, leafAt, h.pte x hx]

-- =========================================================== kmalloc

/-- `kmalloc` takes pages that were free. -/
theorem grows_kmalloc (K : Kmalloc M) (h : RefInv roots lost noHold s) :
    Grows roots lost X s { s with pmm := (K.kmalloc s.pmm).2 } := by
  let s₁ : Machine M := { s with pmm := (K.kmalloc s.pmm).2 }
  have hfree : s₁.free ⊆ s.free := (K.kmalloc_spec s.pmm).1
  have hmem : ∀ r path f, tableAt roots s r path = some f →
      s₁.mem f = s.mem f := fun _ _ _ _ => rfl
  have hinv : RefInv roots lost noHold s₁ := by
    apply h.congr hmem
    · intro p hp
      exact Or.inl (hfree hp)
    · intro p hp
      exact h.ref_eq hp
    · intro p hp
      exact absurd hp (Nat.lt_irrefl 0)
  exact (Grows.refl h).of_mem hinv rfl hfree

-- ======================================================= setup_pgdir

theorem frameOf_bootPgdir {i : Nat} (hi : i < 511) :
    frameOf (bootPgdir i) = none := by
  rw [bootPgdir, if_neg (by omega), frameOf_zero]

/-- `setup_pgdir` adds a root that maps nothing. It fails only when no page
is free. -/
theorem setupPgdir_spec (h : RefInv roots lost noHold s) :
    (∃ page s', setupPgdir s = some (page, s')
        ∧ RefInv (insert page roots) lost noHold s' ∧ page ∈ s.free
        ∧ page ∉ roots ∧ s'.free = s.free.erase page
        ∧ (∀ x ∈ slots roots, SameView roots s (insert page roots) s' x)
        ∧ ∀ x : Slot, x.1 = page → pteAt (insert page roots) s' x = 0)
      ∨ setupPgdir s = none ∧ s.free = ∅ := by
  unfold setupPgdir
  cases halloc : allocPage s with
  | none => exact Or.inr ⟨rfl, allocPage_none halloc⟩
  | some a =>
      obtain ⟨page, s₁⟩ := a
      obtain ⟨hin, hfree₁, hmem₁, -, -⟩ := allocPage_spec halloc
      let s' : Machine M :=
        { s₁ with mem := Function.update s₁.mem page bootPgdir }
      have hmem : s'.mem = Function.update s₁.mem page bootPgdir := rfl
      have href : s'.ref = s₁.ref := rfl
      have hpmm : s'.pmm = s₁.pmm := rfl
      obtain ⟨h', hnew, hpte, hzero⟩ :=
        h.addRoot halloc hmem href hpmm fun i hi => frameOf_bootPgdir hi
      refine Or.inl ⟨page, s', rfl, h', hin, hnew, hfree₁, ?_, hzero⟩
      intro x hx
      have hr : x.1 ≠ page := by
        intro hr
        obtain ⟨r, d1, d0, t⟩ := x
        subst hr
        exact hnew (mem_slots.mp hx).1
      refine ⟨hpte x hr, fun p hp => ?_⟩
      rw [leafAt, hpte x hr] at hp
      have hne : p ≠ page := by
        intro heq
        subst heq
        exact (h.mapped hx hp).2.1 hin
      rw [hmem, Function.update_of_ne hne, hmem₁]

-- ================================================== pgdir_alloc_page

/-- With the page tables of its address made, `page_insert` does the rest. -/
theorem pageInsert_tables_first (h : Forest roots lost s) (hr : r ∈ roots)
    (hla : pdx1 la < 511) {s₁ : Machine M} {ptep : Nat × Nat}
    (hget : getPte s r la true = some (some ptep, s₁)) :
    pageInsert s r page la perm = pageInsert s₁ r page la perm := by
  obtain ⟨o, s₂, hget₂, hgrown, hptep, -, -, -⟩ := getPte_create h hr hla
  rw [hget] at hget₂
  cases hget₂
  obtain ⟨f, rfl, hf⟩ := hptep _ rfl
  -- a second `get_pte` finds what the first one made
  obtain ⟨o', s₃, hget₃, -, hptep₃, hnull₃, hkept₃, -⟩ :=
    getPte_create hgrown.forest hr hla
  have hsome : tableAt roots s₁ r [pdx0 la, pdx1 la] ≠ none := by
    rw [hf]
    exact fun h => by cases h
  obtain rfl := hkept₃ hsome
  cases o' with
  | none => exact absurd (hnull₃ rfl).2 hsome
  | some ptep' =>
      obtain ⟨f', rfl, hf'⟩ := hptep₃ _ rfl
      obtain rfl : f' = f := Option.some.inj (hf'.symm.trans hf)
      unfold pageInsert
      rw [hget, hget₃]

/-- `page_insert` of a page in use at an address that is not mapped. -/
theorem pageInsert_empty (h : RefInv roots lost noHold s) (hr : r ∈ roots)
    (hla : pdx1 la < 511) (huser : UserPage roots lost s page)
    (hperm : perm < 2 ^ 10) (hempty : leafAt roots s (slotOf r la) = none) :
    ∃ b s', pageInsert s r page la perm = some (b, s')
      ∧ Grows roots lost (· = slotOf r la) s s'
      ∧ (b = true →
        pteAt roots s' (slotOf r la) = pteCreate page (pteV ||| perm)
        ∧ s.free.card ≤ s'.free.card + 2)
      ∧ (b = false → pteAt roots s' (slotOf r la) = pteAt roots s (slotOf r la)
        ∧ s'.free = ∅ ∧ s.free.card < 2) := by
  obtain ⟨b, s', hrun, hinv, hedits, -, hpte, hgrown, -⟩ :=
    pageInsert_spec h hr hla huser hperm
  obtain ⟨o, s₁, hget, hg₁, -, hnull, hsome⟩ :=
    getPte_exact h.forest hr hla
  have hmissing : missing roots s r la ≤ 2 := by
    unfold missing
    split <;> split <;> omega
  cases o with
  | none =>
      -- no memory for a page table
      have hfail : pageInsert s r page la perm = some (false, s₁) := by
        unfold pageInsert
        rw [hget]
      rw [hfail] at hrun
      cases hrun
      obtain ⟨-, hnone⟩ := hgrown rfl
      have hlt := hnull rfl
      refine ⟨false, _, hfail, ⟨hinv, fun x hx => hedits.pte_eq hx, ?_,
        hg₁.free_sub⟩, (fun h => by cases h),
        fun _ => ⟨hg₁.pte_eq _, hnone, by omega⟩⟩
      intro p hp
      have hp' := hg₁.userPage hp
      exact ⟨hp', hedits.mem_eq hp'.2.2⟩
  | some ptep =>
      obtain ⟨f, rfl, hf, hcard⟩ := hsome ptep rfl
      have hfirst : pageInsert s r page la perm
          = pageInsert s₁ r page la perm :=
        pageInsert_tables_first h.forest hr hla hget
      have hempty₁ : leafAt roots s₁ (slotOf r la) = none := by
        rw [leafAt, hg₁.pte_eq]
        exact hempty
      have hrun₁ : pageInsert s₁ r page la perm = some (b, s') := by
        rw [← hfirst]
        exact hrun
      have hfree : s'.free = s₁.free :=
        pageInsert_free hg₁.forest hr hla hf (Or.inl hempty₁) hrun₁
      have htable : ∀ r' q, tableAt roots s' r' q = tableAt roots s₁ r' q := by
        apply pageInsert_tables hg₁.forest hr hla _ hrun₁
        rw [hf]
        exact fun h => by cases h
      have hb : b = true := by
        obtain ⟨b', s₂, hrun', -, -, -, -, -, hthere⟩ :=
          pageInsert_spec (h.grown hg₁) hr hla (hg₁.userPage huser) hperm
        rw [hrun₁] at hrun'
        cases hrun'
        apply (hthere _).1
        rw [hf]
        exact fun h => by cases h
      refine ⟨b, s', hrun, ⟨hinv, fun x hx => hedits.pte_eq hx, ?_, ?_⟩, ?_,
        ?_⟩
      · intro p hp
        have hp₁ := hg₁.userPage hp
        have hp' : UserPage roots lost s' p := by
          refine ⟨hp₁.1, ?_, ?_⟩
          · rw [hfree]
            exact hp₁.2.1
          · intro hist
            apply hp₁.2.2
            rcases hist with hlost | ⟨r', q, hq⟩
            · exact Or.inl hlost
            · exact Or.inr ⟨r', q, by rw [← htable]; exact hq⟩
        exact ⟨hp', hedits.mem_eq hp'.2.2⟩
      · rw [hfree]
        exact hg₁.free_sub
      · intro _
        refine ⟨hpte hb, ?_⟩
        rw [hfree]
        omega
      · intro hfalse
        rw [hb] at hfalse
        cases hfalse

/-- `pgdir_alloc_page` at an address that is not mapped: it maps a page that
was free, or gives the page back. -/
theorem pgdirAllocPage_spec (h : RefInv roots lost noHold s) (hr : r ∈ roots)
    (hla : pdx1 la < 511) (hperm : perm < 2 ^ 10)
    (hempty : leafAt roots s (slotOf r la) = none) :
    ∃ o s', pgdirAllocPage s r la perm = some (o, s')
      ∧ Grows roots lost (· = slotOf r la) s s'
      ∧ (∀ page, o = some page → page ∈ s.free
        ∧ pteAt roots s' (slotOf r la) = pteCreate page (pteV ||| perm)
        ∧ s.free.card ≤ s'.free.card + 3)
      ∧ (o = none → pteAt roots s' (slotOf r la)
          = pteAt roots s (slotOf r la) ∧ s.free.card < 3) := by
  unfold pgdirAllocPage
  cases halloc : allocPage s with
  | none =>
      refine ⟨none, s, rfl, Grows.refl h, (fun _ h => by cases h),
        fun _ => ⟨rfl, ?_⟩⟩
      rw [allocPage_none halloc]
      decide
  | some a =>
      obtain ⟨page, s₁⟩ := a
      obtain ⟨hin, hfree₁, hmem₁, -, -⟩ := allocPage_spec halloc
      obtain ⟨h₁, huser₁, -, -⟩ := h.allocPage halloc
      have hpte₁ : ∀ x, pteAt roots s₁ x = pteAt roots s x :=
        pteAt_congr fun _ _ g _ => by rw [hmem₁]
      have hcard₁ : s₁.free.card + 1 = s.free.card := by
        rw [hfree₁]
        exact Finset.card_erase_add_one hin
      have hg₁ : Grows roots lost (· = slotOf r la) s s₁ := by
        apply (Grows.refl h).of_mem h₁ hmem₁
        rw [hfree₁]
        exact Finset.erase_subset _ _
      have hempty₁ : leafAt roots s₁ (slotOf r la) = none := by
        rw [leafAt, hpte₁]
        exact hempty
      obtain ⟨b, s₂, hrun, hg₂, hok, hfail⟩ :=
        pageInsert_empty h₁ hr hla huser₁ hperm hempty₁
      dsimp only
      rw [hrun]
      cases b with
      | true =>
          obtain ⟨hentry, hcard⟩ := hok rfl
          refine ⟨some page, s₂, rfl, hg₁.trans hg₂, ?_, fun h => by cases h⟩
          intro page' hpage'
          cases hpage'
          exact ⟨hin, hentry, by omega⟩
      | false =>
          obtain ⟨hsame, hnone, hcard⟩ := hfail rfl
          obtain ⟨huser₂, -⟩ := hg₂.user page huser₁
          -- no slot maps the page: its references are the slots that do
          have hcount : mapCount roots s₂ page = 0 := by
            by_contra hne
            obtain ⟨x, hx, hleaf⟩ := mapCount_pos.mp (Nat.pos_of_ne_zero hne)
            have hsame' : leafAt roots s₂ x = leafAt roots s x := by
              by_cases heq : x = slotOf r la
              · rw [heq, leafAt, hsame, hpte₁, leafAt]
              · exact (hg₁.trans hg₂).leaf heq
            rw [hsame'] at hleaf
            exact (h.mapped hx hleaf).2.1 hin
          have h₃ : RefInv roots lost noHold (freePage s₂ page) :=
            hg₂.inv.freePage huser₂ (by rw [hcount]; rfl)
          have hpte₃ : ∀ x, pteAt roots (freePage s₂ page) x
              = pteAt roots s₂ x := fun x => pteAt_congr (fun _ _ _ _ => rfl) x
          refine ⟨none, freePage s₂ page, rfl,
            (hg₁.trans hg₂).of_mem h₃ rfl ?_, (fun _ h => by cases h),
            fun _ => ⟨?_, by omega⟩⟩
          · rw [freePage_free s₂ page huser₂.2.1]
            intro p hp
            rcases Finset.mem_insert.mp hp with heq | hp
            · rw [heq]
              exact hin
            · rw [hnone] at hp
              exact absurd hp (Finset.notMem_empty p)
          · rw [hpte₃, hsame, hpte₁]

-- ============================================================ stores

/-- A store into a page in use. -/
theorem storeBytes_spec {off n : Nat} {data : Nat → UInt8}
    (h : RefInv roots lost noHold s) (hpage : UserPage roots lost s page) :
    RefInv roots lost noHold (storeBytes s page off data n)
      ∧ (∀ x, pteAt roots (storeBytes s page off data n) x = pteAt roots s x)
      ∧ (∀ p, UserPage roots lost s p →
        UserPage roots lost (storeBytes s page off data n) p)
      ∧ (∀ p, p ≠ page → (storeBytes s page off data n).mem p = s.mem p)
      ∧ ∀ i, byteOf ((storeBytes s page off data n).mem page) i
        = if off ≤ i ∧ i < off + n then (data (i - off)).toNat
          else byteOf (s.mem page) i := by
  have hother : ∀ p, p ≠ page →
      (storeBytes s page off data n).mem p = s.mem p :=
    fun p hp => Function.update_of_ne hp _ _
  obtain ⟨hinv, hpte⟩ := overwrite h hpage hother rfl rfl
  refine ⟨hinv, hpte, fun p hp => ⟨hp.1, hp.2.1, ?_⟩, hother, fun i => ?_⟩
  · intro hist
    apply hp.2.2
    rcases hist with hlost | ⟨r', q, hq⟩
    · exact Or.inl hlost
    · refine Or.inr ⟨r', q, ?_⟩
      rw [← hq]
      symm
      apply tableAt_congr
      intro r₁ q₁ f hf _
      apply hother
      intro heq
      exact hpage.2.2 (Or.inr ⟨r₁, q₁, heq ▸ hf⟩)
  · rw [storeBytes]
    dsimp only
    rw [Function.update_self, byteOf_putBytes]

/-- A store into a page that was allocated on the way. -/
theorem Grows.store {off n : Nat} {data : Nat → UInt8}
    (h : Grows roots lost X s s') (hin : page ∈ s.free)
    (hpage : UserPage roots lost s' page) :
    Grows roots lost X s (storeBytes s' page off data n) := by
  obtain ⟨hinv, hpte, huser, hother, -⟩ :=
    @storeBytes_spec _ _ _ _ _ off n data h.inv hpage
  refine ⟨hinv, fun x hx => (hpte x).trans (h.pte x hx), ?_, h.free⟩
  intro p hp
  obtain ⟨hp', hmem⟩ := h.user p hp
  refine ⟨huser p hp', ?_⟩
  rw [hother p, hmem]
  intro heq
  exact hp.2.1 (heq ▸ hin)

end Ucore.Exec
