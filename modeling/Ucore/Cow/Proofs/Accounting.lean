/-
What the copy-on-write `copy_range` does to the free pages and to the
reference counts when it shares the pages of a range (`Totals`): each page
that the source maps has one reference more for each address it is mapped
at, and of the pages that were free those are gone that became tables of
the destination, and one more for each address: the page `copy_range`
allocates before it looks at `share`, which nothing refers to afterwards.
-/
import Ucore.Cow.Proofs.Rounds

namespace Ucore.Cow

open Mm Loop

variable {M : PmmManager} {roots : Finset Nat} {lost : Set Nat}
  {s s' : Machine M} {dst src lo mid hi start last : Nat}

-- ======================================================== the counts

/-- At how many pages of a range an address space maps `p`. -/
def mappings (roots : Finset Nat) (s : Machine M) (r lo hi p : Nat) : Nat :=
  between (fun n => leafAt roots s (slotOf r (n * pgsize)) = some p)
    (lo / pgsize) (hi / pgsize)

/-- How many pages of a range an address space maps. -/
def mappedPages (roots : Finset Nat) (s : Machine M) (r lo hi : Nat) : Nat :=
  between (fun n => leafAt roots s (slotOf r (n * pgsize)) ≠ none)
    (lo / pgsize) (hi / pgsize)

/-- From `s` to `s'` the pages from `lo` to `hi` were shared. -/
structure Totals (roots : Finset Nat) (lost : Set Nat) (dst src lo hi : Nat)
    (s s' : Machine M) : Prop where
  inv : RefInv roots lost noHold s'
  free_sub : s'.free ⊆ s.free
  mono : ∀ {q p}, tableAt roots s dst q = some p →
    tableAt roots s' dst q = some p
  fresh : ∀ {q p}, tableAt roots s' dst q = some p →
    tableAt roots s dst q = some p ∨ p ∈ s.free
  tables : ∀ r ≠ dst, ∀ q, tableAt roots s' r q = tableAt roots s r q
  source : ∀ la, leafAt roots s' (slotOf src la)
    = leafAt roots s (slotOf src la)
  target : ∀ {la}, la < usertop →
    la / pgsize < lo / pgsize ∨ hi / pgsize ≤ la / pgsize →
    leafAt roots s' (slotOf dst la) = leafAt roots s (slotOf dst la)
  refs : ∀ {p}, UserPage roots lost s p →
    s'.ref p = s.ref p + mappings roots s src lo hi p
  leaks : ∃ L ⊆ s.free, L.card = mappedPages roots s src lo hi
    ∧ (∀ p ∈ L, UserPage roots lost s' p ∧ mapCount roots s' p = 0)
    ∧ ∀ p ∈ s.free, p ∉ s'.free →
      p ∈ L ∨ ∃ q, tableAt roots s' dst q = some p

/-- Nothing is mapped, nothing happens. -/
theorem Totals.skip (h : RefInv roots lost noHold s)
    (hnone : mappedPages roots s src lo hi = 0) :
    Totals roots lost dst src lo hi s s where
  inv := h
  free_sub := Finset.Subset.refl _
  mono := id
  fresh := Or.inl
  tables _ _ _ := rfl
  source _ := rfl
  target _ _ := rfl
  refs := by
    intro p _
    have hzero : mappings roots s src lo hi p = 0 := by
      apply Between.eq_zero_iff.2
      intro n hlo hhi hn
      apply Between.eq_zero_iff.1 hnone n hlo hhi
      rw [hn]
      exact fun h => by cases h
    rw [hzero]
    exact (Int.add_zero _).symm
  leaks := by
    refine ⟨∅, Finset.empty_subset _, ?_, fun p hp => ?_, fun p hp hn => ?_⟩
    · rw [hnone, Finset.card_empty]
    · exact absurd hp (Finset.notMem_empty p)
    · exact absurd hp hn

theorem mappings_congr (h : ∀ la, leafAt roots s' (slotOf src la)
    = leafAt roots s (slotOf src la)) (p : Nat) :
    mappings roots s' src lo hi p = mappings roots s src lo hi p := by
  apply Between.congr
  intro n _ _
  rw [h]

theorem mappedPages_congr (h : ∀ la, leafAt roots s' (slotOf src la)
    = leafAt roots s (slotOf src la)) :
    mappedPages roots s' src lo hi = mappedPages roots s src lo hi := by
  apply Between.congr
  intro n _ _
  rw [h]

/-- A user page stays one. -/
theorem Totals.userPage (h : Totals roots lost dst src lo hi s s') {p : Nat}
    (hp : UserPage roots lost s p) : UserPage roots lost s' p := by
  refine ⟨hp.1, fun hin => hp.2.1 (h.free_sub hin), ?_⟩
  intro htable
  rcases htable with hlost | ⟨r, q, hq⟩
  · exact hp.2.2 (Or.inl hlost)
  · by_cases hr : r = dst
    · subst hr
      rcases h.fresh hq with hold | hold
      · exact hp.2.2 (Or.inr ⟨r, q, hold⟩)
      · exact hp.2.1 hold
    · rw [h.tables r hr] at hq
      exact hp.2.2 (Or.inr ⟨r, q, hq⟩)

/-- A page that nothing maps stays so. -/
theorem Totals.unmapped (h : Totals roots lost dst src lo hi s s')
    (hinv : RefInv roots lost noHold s) (hs : src ∈ roots)
    (hhi : hi ≤ usertop) {p : Nat} (hp : UserPage roots lost s p)
    (hzero : mapCount roots s p = 0) : mapCount roots s' p = 0 := by
  have hnone : mappings roots s src lo hi p = 0 := by
    apply Between.eq_zero_iff.2
    intro n _ hn hleaf
    have hlt : n * pgsize < usertop := by
      unfold pgsize at *
      omega
    have hpos : 0 < mapCount roots s p :=
      mapCount_pos.2 ⟨_, slotOf_mem hs (pdx1_user hlt), hleaf⟩
    omega
  have href := h.refs hp
  have href' := h.inv.ref_eq (h.userPage hp).2.2
  rw [hinv.ref_eq hp.2.2, hzero, hnone] at href
  rw [href] at href'
  unfold noHold at href'
  omega

/-- One piece of the range after the other. -/
theorem Totals.trans {s₁ s₂ s₃ : Machine M} (hs : src ∈ roots) (hlo : lo ≤ mid) (hmid : mid ≤ hi)
    (hhi : hi ≤ usertop) (h : Totals roots lost dst src lo mid s₁ s₂)
    (h' : Totals roots lost dst src mid hi s₂ s₃) :
    Totals roots lost dst src lo hi s₁ s₃ where
  inv := h'.inv
  free_sub := h'.free_sub.trans h.free_sub
  mono hq := h'.mono (h.mono hq)
  fresh hq := by
    rcases h'.fresh hq with hold | hold
    · exact h.fresh hold
    · exact Or.inr (h.free_sub hold)
  tables r hr q := (h'.tables r hr q).trans (h.tables r hr q)
  source la := (h'.source la).trans (h.source la)
  target := by
    intro la hla hout
    have hlo' := Nat.div_le_div_right (c := pgsize) hlo
    have hmid' := Nat.div_le_div_right (c := pgsize) hmid
    rw [h'.target hla (by omega), h.target hla (by omega)]
  refs := by
    intro p hp
    rw [h'.refs (h.userPage hp), h.refs hp, mappings_congr h.source]
    unfold mappings
    rw [Between.split (Nat.div_le_div_right hlo) (Nat.div_le_div_right hmid)]
    omega
  leaks := by
    obtain ⟨L, hsub, hcard, hgone, hrest⟩ := h.leaks
    obtain ⟨L', hsub', hcard', hgone', hrest'⟩ := h'.leaks
    rw [mappedPages_congr h.source] at hcard'
    have hdisj : Disjoint L L' := by
      apply Finset.disjoint_left.2
      intro p hp hp'
      exact (hgone p hp).1.2.1 (hsub' hp')
    refine ⟨L ∪ L', ?_, ?_, ?_, ?_⟩
    · exact Finset.union_subset hsub (hsub'.trans h.free_sub)
    · rw [Finset.card_union_of_disjoint hdisj, hcard, hcard']
      exact (Between.split (Nat.div_le_div_right hlo)
        (Nat.div_le_div_right hmid)).symm
    · intro p hp
      rcases Finset.mem_union.1 hp with hp | hp
      · obtain ⟨huser, hzero⟩ := hgone p hp
        exact ⟨h'.userPage huser, h'.unmapped h.inv hs hhi huser hzero⟩
      · exact hgone' p hp
    · intro p hp hout
      by_cases hp₂ : p ∈ s₂.free
      · rcases hrest' p hp₂ hout with hp' | hq
        · exact Or.inl (Finset.mem_union_right _ hp')
        · exact Or.inr hq
      · rcases hrest p hp hp₂ with hp' | ⟨q, hq⟩
        · exact Or.inl (Finset.mem_union_left _ hp')
        · exact Or.inr ⟨q, h'.mono hq⟩

-- ========================================================= one round

/-- The tables that `get_pte` creates for the destination. -/
theorem Totals.grown {la : Nat} (h : RefInv roots lost noHold s)
    (g : Grown roots lost s s')
    (hframe : ∀ r q, ¬ OnWay dst la r q →
      tableAt roots s' r q = tableAt roots s r q) :
    Totals roots lost dst src lo lo s s' where
  inv := h.grown g
  free_sub := g.free_sub
  mono := g.mono
  fresh := g.fresh
  tables r hr q := hframe r q fun hway => hr hway.1
  source _ := by rw [leafAt, leafAt, g.pte_eq]
  target _ _ := by rw [leafAt, leafAt, g.pte_eq]
  refs := by
    intro p hp
    rw [g.ref_eq (g.userPage hp).2.2]
    unfold mappings
    rw [Between.empty]
    exact (Int.add_zero _).symm
  leaks := by
    refine ⟨∅, Finset.empty_subset _, ?_, fun p hp => ?_, ?_⟩
    · unfold mappedPages
      rw [Between.empty, Finset.card_empty]
    · exact absurd hp (Finset.notMem_empty p)
    · intro p hp hout
      rcases g.free_split hp with hin | hlost | ⟨r, q, hq⟩
      · exact absurd hin hout
      · exact absurd hp (h.forest.lostNotFree hlost)
      · by_cases hr : r = dst
        · exact Or.inr ⟨q, hr ▸ hq⟩
        · rw [hframe r q fun hway => hr hway.1] at hq
          exact absurd hp (h.forest.notFree hq)

theorem mapsPage_iff {la : Nat} {o : Option Nat} (haligned : la % pgsize = 0) :
    leafAt roots s (slotOf src (la / pgsize * pgsize)) = o
      ↔ leafAt roots s (slotOf src la) = o := by
  have heq : la / pgsize * pgsize = la := by
    unfold pgsize at *
    omega
  rw [heq]

/-- Sharing a page adds a mapping. -/
theorem PageShared.count {f page : Nat} (hd : dst ∈ roots)
    (hla : pdx1 start < 511) (hf : Managed f)
    (hleaf : leafAt roots s (slotOf src start) = some f)
    (hempty : leafAt roots s (slotOf dst start) = none)
    (h : PageShared roots lost dst src start f page s s') (p : Nat) :
    mapCount roots s' p = mapCount roots s p + if f = p then 1 else 0 := by
  have hsource : leafAt roots s' (slotOf src start) = some f := by
    rw [leafAt, h.source]
    exact frameOf_sharedPte hf
  have htarget : leafAt roots s' (slotOf dst start) = some f := by
    rw [leafAt, h.target]
    exact frameOf_sharedPte hf
  have hchange := Occurs.change (a := p) (f := leafAt roots s)
    (g := leafAt roots s') (slotOf_mem hd hla) (by
      intro y _ hy
      by_cases hsrc : y = slotOf src start
      · rw [hsrc, hsource, hleaf]
      · rw [leafAt, leafAt, h.edits.pte_eq]
        intro hor
        exact hor.elim hsrc hy)
  rw [hempty, htarget, if_neg (fun h => by cases h), Nat.add_zero] at hchange
  rw [mapCount, hchange, mapCount]
  simp only [Option.some.injEq]

/-- A page that is shared, with the page that is lost for it. -/
theorem Totals.page {f page : Nat} (h : RefInv roots lost noHold s)
    (hd : dst ∈ roots) (hs : src ∈ roots) (hne : dst ≠ src)
    (haligned : start % pgsize = 0) (htop : start < usertop)
    (hleaf : leafAt roots s (slotOf src start) = some f)
    (hempty : leafAt roots s (slotOf dst start) = none)
    (hpage : PageShared roots lost dst src start f page s s') :
    Totals roots lost dst src start (start + pgsize) s s' := by
  have hla := pdx1_user htop
  have hf := h.mapped (slotOf_mem hs hla) hleaf
  have hcount := hpage.count hd hla hf.1 hleaf hempty
  have hfree := hpage.free hempty
  have hnext : (start + pgsize) / pgsize = start / pgsize + 1 :=
    Nat.add_div_right start (by decide)
  have htables : ∀ {p}, IsTable roots lost s' p → IsTable roots lost s p := by
    intro p hp
    rcases hp with hlost | ⟨r, q, hq⟩
    · exact Or.inl hlost
    · rw [hpage.tables] at hq
      exact Or.inr ⟨r, q, hq⟩
  have hpageNew : ¬ IsTable roots lost s page := by
    intro ht
    rcases ht with hlost | ⟨r, q, hq⟩
    · exact h.forest.lostNotFree hlost hpage.leaked
    · exact h.forest.notFree hq hpage.leaked
  have hpageZero : mapCount roots s page = 0 := by
    by_contra hmapped
    exact (h.mapped_of_pos (Nat.pos_of_ne_zero hmapped)).2.1 hpage.leaked
  refine ⟨hpage.inv, ?_, ?_, ?_, ?_, ?_, ?_, ?_, ?_⟩
  · rw [hfree]
    exact Finset.erase_subset _ _
  · intro q p hq
    rw [hpage.tables]
    exact hq
  · intro q p hq
    rw [hpage.tables] at hq
    exact Or.inl hq
  · exact fun r _ q => hpage.tables r q
  · intro la
    by_cases hsrc : slotOf src la = slotOf src start
    · rw [hsrc, hleaf, leafAt, hpage.source]
      exact frameOf_sharedPte hf.1
    · rw [leafAt, leafAt, hpage.edits.pte_eq]
      intro hor
      rcases hor with heq | heq
      · exact hsrc heq
      · exact hne (congrArg Prod.fst heq).symm
  · intro la hlt hout
    rw [leafAt, leafAt, hpage.edits.pte_eq]
    intro hor
    rcases hor with heq | heq
    · exact hne (congrArg Prod.fst heq)
    · exact slotOf_ne hlt htop (by omega) heq
  · intro p hp
    have href := h.ref_eq hp.2.2
    have href' := hpage.inv.ref_eq fun ht => hp.2.2 (htables ht)
    rw [hcount] at href'
    rw [href', href]
    unfold mappings noHold
    rw [hnext, Between.one]
    simp only [mapsPage_iff haligned, hleaf, Option.some.injEq]
    omega
  · refine ⟨{page}, Finset.singleton_subset_iff.2 hpage.leaked, ?_, ?_, ?_⟩
    · unfold mappedPages
      rw [hnext, Between.one, if_pos, Finset.card_singleton]
      rw [ne_eq, mapsPage_iff haligned, hleaf]
      exact fun h => by cases h
    · intro p hp
      obtain rfl := Finset.mem_singleton.1 hp
      refine ⟨⟨h.forest.freeManaged hpage.leaked, ?_, ?_⟩, ?_⟩
      · rw [hfree]
        exact Finset.notMem_erase _ _
      · exact fun ht => hpageNew (htables ht)
      · rw [hcount, hpageZero, if_neg]
        intro heq
        exact hf.2.1 (heq ▸ hpage.leaked)
    · intro p hp hout
      rw [hfree, Finset.mem_erase] at hout
      refine Or.inl (Finset.mem_singleton.2 ?_)
      by_contra hother
      exact hout ⟨hother, hp⟩

-- =================================================== calls that fail

/-- In a round at `x` a call of `get_pte` for the destination or of
`page_insert` fails. -/
inductive CallFails (dst src : Nat) (x : Machine M × Nat) : Prop
  | lookup {ptep : Nat × Nat} {s₁ s₂ : Machine M} :
      getPte x.1 src x.2 false = some (some ptep, s₁) →
      hasFlag (s₁.word ptep) pteV →
      getPte s₁ dst x.2 true = some (none, s₂) → CallFails dst src x
  | source {ptep nptep : Nat × Nat} {s₁ s₂ s₃ s₄ : Machine M}
      {page npage : Nat} :
      getPte x.1 src x.2 false = some (some ptep, s₁) →
      hasFlag (s₁.word ptep) pteV →
      getPte s₁ dst x.2 true = some (some nptep, s₂) →
      pte2page (s₂.word ptep) = some page →
      allocPage s₂ = some (npage, s₃) →
      pageInsert s₃ src page x.2 (sharePerm (s₂.word ptep))
        = some (false, s₄) → CallFails dst src x
  | target {ptep nptep : Nat × Nat} {s₁ s₂ s₃ s₄ s₅ : Machine M}
      {page npage : Nat} {ok : Bool} :
      getPte x.1 src x.2 false = some (some ptep, s₁) →
      hasFlag (s₁.word ptep) pteV →
      getPte s₁ dst x.2 true = some (some nptep, s₂) →
      pte2page (s₂.word ptep) = some page →
      allocPage s₂ = some (npage, s₃) →
      pageInsert s₃ src page x.2 (sharePerm (s₂.word ptep))
        = some (ok, s₄) →
      pageInsert s₄ dst page x.2 (sharePerm (s₂.word ptep))
        = some (false, s₅) → CallFails dst src x

/-- An entry that `get_pte` finds is the entry of the address. -/
theorem getPte_entry {la : Nat} {ptep : Nat × Nat} {s₁ : Machine M}
    (h : Forest roots lost s) (hs : src ∈ roots) (hla : pdx1 la < 511)
    (hget : getPte s src la false = some (some ptep, s₁)) :
    s₁ = s ∧ ∃ pt, ptep = (pt, ptx la)
      ∧ tableAt roots s src [pdx0 la, pdx1 la] = some pt := by
  rw [getPte_look h hs hla] at hget
  cases hpt : tableAt roots s src [pdx0 la, pdx1 la] with
  | none =>
      rw [hpt] at hget
      cases hget
  | some pt =>
      rw [hpt] at hget
      cases hget
      exact ⟨rfl, pt, rfl, rfl⟩

/-- With the tables of both sides there, the calls of `page_insert` do not
fail: only the `get_pte` before them does. -/
theorem CallFails.lookup_fails {x : Machine M × Nat}
    (h : RefInv roots lost noHold x.1) (hd : dst ∈ roots)
    (hs : src ∈ roots) (hla : pdx1 x.2 < 511)
    (hfail : CallFails dst src x) :
    leafAt roots x.1 (slotOf src x.2) ≠ none
      ∧ ∃ s₂, getPte x.1 dst x.2 true = some (none, s₂) := by
  have hentry : ∀ {ptep s₁}, getPte x.1 src x.2 false = some (some ptep, s₁) →
      hasFlag (s₁.word ptep) pteV →
      s₁ = x.1 ∧ ∃ pt f, ptep = (pt, ptx x.2)
        ∧ tableAt roots x.1 src [pdx0 x.2, pdx1 x.2] = some pt
        ∧ leafAt roots x.1 (slotOf src x.2) = some f := by
    intro ptep s₁ hget hv
    obtain ⟨rfl, pt, rfl, hpt⟩ := getPte_entry h.forest hs hla hget
    have hpte : pteAt roots x.1 (slotOf src x.2)
        = x.1.word (pt, ptx x.2) := by
      simp only [pteAt, slotOf, hpt]
      rfl
    have hsome : leafAt roots x.1 (slotOf src x.2) ≠ none := by
      rw [leafAt, hpte]
      intro hnone
      exact frameOf_eq_none_iff.1 hnone hv
    obtain ⟨f, hf⟩ := Option.ne_none_iff_exists'.1 hsome
    exact ⟨rfl, pt, f, rfl, hpt, hf⟩
  -- what the round has before its first `page_insert`
  have hready : ∀ {pt f nptep s₂ s₃ page npage},
      tableAt roots x.1 src [pdx0 x.2, pdx1 x.2] = some pt →
      leafAt roots x.1 (slotOf src x.2) = some f →
      getPte x.1 dst x.2 true = some (some nptep, s₂) →
      pte2page (s₂.word (pt, ptx x.2)) = some page →
      allocPage s₂ = some (npage, s₃) →
      RefInv roots lost noHold s₃ ∧ UserPage roots lost s₃ page
        ∧ tableAt roots s₃ src [pdx0 x.2, pdx1 x.2] ≠ none
        ∧ tableAt roots s₃ dst [pdx0 x.2, pdx1 x.2] ≠ none := by
    intro pt f nptep s₂ s₃ page npage hpt hf hnew hpage halloc
    obtain ⟨o, t, hget, hgrown, -, -, hptep⟩ :=
      getPte_exact h.forest hd hla
    rw [hnew] at hget
    cases hget
    obtain ⟨g, -, hg, -⟩ := hptep nptep rfl
    have h₂ := h.grown hgrown
    obtain ⟨h₃, -, -, -⟩ := h₂.allocPage halloc
    have hmem₃ := (allocPage_spec halloc).2.2.1
    have hpte₂ : pteAt roots s₂ (slotOf src x.2)
        = s₂.word (pt, ptx x.2) := by
      simp only [pteAt, slotOf, hgrown.mono hpt]
      rfl
    have hf₂ : leafAt roots s₂ (slotOf src x.2) = some f := by
      rw [leafAt, hgrown.pte_eq]
      exact hf
    have hpte₃ : ∀ y, pteAt roots s₃ y = pteAt roots s₂ y :=
      pteAt_congr fun _ _ g _ => by rw [hmem₃]
    have hf₃ : leafAt roots s₃ (slotOf src x.2) = some f := by
      rw [leafAt, hpte₃]
      exact hf₂
    have huser := h₃.mapped (slotOf_mem hs hla) hf₃
    have hsame : page = f := by
      rw [leafAt, hpte₂] at hf₂
      rw [huser.1.pte2page_eq hf₂] at hpage
      exact (Option.some.inj hpage).symm
    subst hsame
    refine ⟨h₃, huser, ?_, ?_⟩
    · rw [tableAt_of_mem hmem₃, hgrown.mono hpt]
      exact fun h => by cases h
    · rw [tableAt_of_mem hmem₃, hg]
      exact fun h => by cases h
  cases hfail with
  | lookup hget hv hnew =>
      obtain ⟨rfl, pt, f, rfl, -, hf⟩ := hentry hget hv
      rw [hf]
      exact ⟨(fun h => by cases h), _, hnew⟩
  | source hget hv hnew hpage halloc hins =>
      obtain ⟨rfl, pt, f, rfl, hpt, hf⟩ := hentry hget hv
      obtain ⟨h₃, huser, hst, -⟩ := hready hpt hf hnew hpage halloc
      obtain ⟨b, s₄, hrun, -, -, -, -, -, hkept⟩ :=
        pageInsert_spec h₃ hs hla huser (sharePerm_lt _)
      obtain ⟨rfl, -⟩ := hkept hst
      rw [hrun] at hins
      cases hins
  | target hget hv hnew hpage halloc hins hins' =>
      obtain ⟨rfl, pt, f, rfl, hpt, hf⟩ := hentry hget hv
      obtain ⟨h₃, huser, hst, hdt⟩ := hready hpt hf hnew hpage halloc
      obtain ⟨b, s₄, hrun, h₄, -, -, hpte₄, -, hkept⟩ :=
        pageInsert_spec h₃ hs hla huser (sharePerm_lt _)
      obtain ⟨rfl, -⟩ := hkept hst
      have htables := pageInsert_tables h₃.forest hs hla hst hrun
      rw [hrun] at hins
      obtain rfl := (Prod.mk.inj (Option.some.inj hins)).2
      have huser₄ := h₄.mapped (slotOf_mem hs hla) (p := _) (by
        rw [leafAt, hpte₄ rfl]
        exact frameOf_pteCreate huser.1.lt (sharedPte_type_lt _))
      obtain ⟨b', s₅, hrun', -, -, -, -, -, hkept'⟩ :=
        pageInsert_spec h₄ hd hla huser₄ (sharePerm_lt _)
      have hdt₄ : tableAt roots s₄ dst [pdx0 x.2, pdx1 x.2] ≠ none := by
        rwa [htables]
      obtain ⟨rfl, -⟩ := hkept' hdt₄
      rw [hrun'] at hins'
      cases hins'

-- ======================================================== all rounds

/-- The first page of the range that the source maps. -/
structure FirstMapped (roots : Finset Nat) (s : Machine M)
    (src start last a : Nat) : Prop where
  lo : start ≤ a
  hi : a < last
  aligned : a % pgsize = 0
  mapped : leafAt roots s (slotOf src a) ≠ none
  before : mappedPages roots s src start a = 0

theorem FirstMapped.unique {a b : Nat} (h : FirstMapped roots s src start last a)
    (h' : FirstMapped roots s src start last b) : a = b := by
  have hpg : pgsize = 4096 := rfl
  have hle : ∀ {a b}, FirstMapped roots s src start last a →
      FirstMapped roots s src start last b → a ≤ b := by
    intro a b ha hb
    by_contra hlt
    have haligned := ha.aligned
    have hbligned := hb.aligned
    have hlo := Nat.div_le_div_right (c := pgsize) hb.lo
    rw [hpg] at haligned hbligned
    apply Between.eq_zero_iff.1 ha.before (b / pgsize) hlo
    · rw [hpg]
      omega
    · rw [ne_eq, mapsPage_iff hb.aligned]
      exact hb.mapped
  exact Nat.le_antisymm (hle h h') (hle h' h)

/-- The range from `start` is shared up to `stop`; at its first mapped page
there were pages for the destination's tables. -/
structure SharedTill (roots : Finset Nat) (lost : Set Nat)
    (dst src start last : Nat) (s t : Machine M) (stop : Nat) : Prop where
  lo : start ≤ stop
  hi : stop ≤ last
  totals : Totals roots lost dst src start stop s t
  idle : mappedPages roots s src start stop = 0 → t = s
  busy : mappedPages roots s src start stop ≠ 0 →
    ∃ a, FirstMapped roots s src start last a
      ∧ missing roots s dst a ≤ s.free.card

/-- The loop ran out of pages for the destination's tables at `stop`. -/
structure Starved (roots : Finset Nat) (lost : Set Nat)
    (dst src start last : Nat) (s t : Machine M) (stop : Nat) : Prop where
  lo : start ≤ stop
  hi : stop < last
  totals : Totals roots lost dst src start stop s t
  idle : mappedPages roots s src start stop = 0 →
    ∃ a, FirstMapped roots s src start last a
      ∧ s.free.card < missing roots s dst a
  busy : mappedPages roots s src start stop ≠ 0 →
    ∃ a, FirstMapped roots s src start last a
      ∧ missing roots s dst a ≤ s.free.card

section Run

variable {ok : Bool} {fuel : Nat}

/-- What a round that is come to does: it stays at a hole, moves on, runs
out of pages for tables, or panics. -/
theorem SharedTill.round {x : Machine M × Nat}
    (h : SharedTill roots lost dst src start last s x.1 x.2)
    (hd : dst ∈ roots) (hs : src ∈ roots) (hne : dst ≠ src)
    (htop : last ≤ usertop) (hlast : last % pgsize = 0)
    (hempty : ∀ va, InRange start last va →
      leafAt roots s (slotOf dst va) = none) (hin : Inside last x) :
    Hole src x
    ∨ (∃ t next, copyRound dst src last true x = goOn last t next
      ∧ x.2 + pgsize ≤ next
      ∧ SharedTill roots lost dst src start last s t (min next last))
    ∨ (∃ t, copyRound dst src last true x = .stop (some (false, t))
      ∧ CallFails dst src x
      ∧ Starved roots lost dst src start last s t x.2)
    ∨ copyRound dst src last true x = .stop none := by
  have hlt := hin.2.1
  have hinv := h.totals.inv
  have hla : pdx1 x.2 < 511 := pdx1_user (by omega)
  have hpg : pgsize = 4096 := rfl
  by_cases hhole : Hole src x
  · exact Or.inl hhole
  right
  cases hleaf : leafAt roots x.1 (slotOf src x.2) with
  | none =>
      -- no page table: nothing is mapped up to the next one's start
      have hnone : tableAt roots x.1 src [pdx0 x.2, pdx1 x.2] = none := by
        by_contra hsome
        exact hhole ((hole_iff hinv.forest hs hla).2 ⟨hsome, hleaf⟩)
      obtain ⟨hstep, -⟩ := rounddown_next hin.2.2
      generalize hnext : rounddown (x.2 + ptsize) ptsize = next at hstep
      have hzero : mappedPages roots x.1 src x.2 (min next last) = 0 := by
        apply Between.eq_zero_iff.2
        intro n hlo hhi hmapped
        have haligned := hin.2.2
        have hlo' : x.2 ≤ n * pgsize := by
          rw [hpg] at hlo haligned ⊢
          omega
        have hhi' : n * pgsize < next := by
          have hmin := Nat.div_mul_le_self (min next last) pgsize
          have hmul : n * pgsize < min next last / pgsize * pgsize :=
            Nat.mul_lt_mul_of_pos_right hhi (by decide)
          omega
        obtain ⟨hd1, hd0⟩ := pdx_of_lt_rounddown hlo' (by omega)
        apply hmapped
        simp only [leafAt, pteAt, slotOf, hd1, hd0, hnone, frameOf_zero]
      have hlo := h.lo
      have hskip : Totals roots lost dst src x.2 (min next last) x.1 x.1 :=
        Totals.skip hinv hzero
      have hsum : mappedPages roots s src start (min next last)
          = mappedPages roots s src start x.2 := by
        rw [mappedPages_congr h.totals.source] at hzero
        unfold mappedPages at hzero ⊢
        rw [Between.split (Nat.div_le_div_right hlo)
          (Nat.div_le_div_right (show x.2 ≤ min next last by omega)), hzero,
          Nat.add_zero]
      refine Or.inl ⟨x.1, next, ?_, hstep, ?_, Nat.min_le_right _ _, ?_, ?_,
        ?_⟩
      · rw [← hnext]
        exact copyRound_skip hinv.forest hs hla hnone
      · omega
      · exact h.totals.trans hs hlo (by omega) (by omega) hskip
      · rw [hsum]
        exact h.idle
      · rw [hsum]
        exact h.busy
  | some f =>
      have hdst : leafAt roots x.1 (slotOf dst x.2) = none := by
        rw [h.totals.target (by omega) (Or.inr (Nat.le_refl _))]
        exact hempty x.2 ⟨h.lo, hlt⟩
      have hfirst : mappedPages roots s src start x.2 = 0 →
          FirstMapped roots s src start last x.2 := by
        intro hzero
        refine ⟨h.lo, hlt, hin.2.2, ?_, hzero⟩
        rw [← h.totals.source, hleaf]
        exact fun h => by cases h
      obtain ⟨pt, hpt⟩ : ∃ pt,
          tableAt roots x.1 src [pdx0 x.2, pdx1 x.2] = some pt := by
        cases hpt : tableAt roots x.1 src [pdx0 x.2, pdx1 x.2] with
        | some pt => exact ⟨pt, rfl⟩
        | none =>
            simp only [leafAt, pteAt, slotOf, hpt, frameOf_zero] at hleaf
            cases hleaf
      have hword : ∀ {t : Machine M},
          tableAt roots t src [pdx0 x.2, pdx1 x.2] = some pt →
          t.word (pt, ptx x.2) = pteAt roots t (slotOf src x.2) := by
        intro t ht
        simp only [pteAt, slotOf, ht]
        rfl
      have hv : hasFlag (x.1.word (pt, ptx x.2)) pteV := by
        by_contra hno
        rw [hword hpt] at hno
        rw [leafAt, frameOf_eq_none_iff.mpr hno] at hleaf
        cases hleaf
      have hlook := getPte_look hinv.forest hs hla
      rw [hpt, Option.map_some] at hlook
      obtain ⟨o, s₁, hget, hgrown, hframe, hnull, hptep⟩ :=
        getPte_exact hinv.forest hd hla
      have htables : Totals roots lost dst src x.2 x.2 x.1 s₁ :=
        Totals.grown hinv hgrown hframe
      unfold copyRound
      rw [hlook]
      dsimp only
      rw [if_pos hv, hget]
      cases o with
      | none =>
          refine Or.inr (Or.inl ⟨s₁, rfl, .lookup hlook hv hget, h.lo, hlt,
            h.totals.trans hs h.lo (Nat.le_refl _) (by omega) htables, ?_,
            h.busy⟩)
          intro hzero
          refine ⟨x.2, hfirst hzero, ?_⟩
          have hfew := hnull rfl
          rwa [h.idle hzero] at hfew
      | some ptep =>
          obtain ⟨g, rfl, hg, hcard₁⟩ := hptep ptep rfl
          have h₁ := hinv.grown hgrown
          have hleaf₁ : leafAt roots s₁ (slotOf src x.2) = some f := by
            rw [leafAt, hgrown.pte_eq]
            exact hleaf
          have hdst₁ : leafAt roots s₁ (slotOf dst x.2) = none := by
            rw [leafAt, hgrown.pte_eq]
            exact hdst
          have hdt : tableAt roots s₁ dst [pdx0 x.2, pdx1 x.2] ≠ none := by
            rw [hg]
            exact fun h => by cases h
          dsimp only
          rw [hword (hgrown.mono hpt)]
          cases halloc : allocPage s₁ with
          | none =>
              have hf := h₁.mapped (slotOf_mem hs hla) hleaf₁
              refine Or.inr (Or.inr ?_)
              rw [copyPte, hf.1.pte2page_eq hleaf₁]
              dsimp only
              rw [halloc]
          | some a =>
              obtain ⟨page, s₂⟩ := a
              obtain ⟨s₃, hrun, hpage⟩ :=
                sharePage h₁ hd hs hne hla hleaf₁ hdt halloc
              have hone := Totals.page h₁ hd hs hne hin.2.2 (by omega) hleaf₁
                hdst₁ hpage
              have haligned := hin.2.2
              have hmin : min (x.2 + pgsize) last = x.2 + pgsize := by
                rw [hpg] at haligned hlast ⊢
                omega
              have hnext : (x.2 + pgsize) / pgsize = x.2 / pgsize + 1 :=
                Nat.add_div_right x.2 (by decide)
              have hpos : mappedPages roots s src start (x.2 + pgsize)
                  = mappedPages roots s src start x.2 + 1 := by
                unfold mappedPages
                rw [hnext, Between.split (Nat.div_le_div_right h.lo)
                  (Nat.le_succ _), Between.one, if_pos]
                rw [ne_eq, mapsPage_iff haligned, ← h.totals.source, hleaf]
                exact fun h => by cases h
              have hlo := h.lo
              have hsum := (h.totals.trans hs hlo (Nat.le_refl _) (by omega)
                htables).trans hs hlo (Nat.le_add_right _ pgsize) (by omega)
                hone
              rw [hrun]
              refine Or.inl ⟨s₃, x.2 + pgsize, rfl, Nat.le_refl _, ?_⟩
              rw [hmin]
              refine ⟨by omega, by omega, hsum, ?_, ?_⟩
              · intro hzero
                omega
              · intro _
                by_cases hzero : mappedPages roots s src start x.2 = 0
                · refine ⟨x.2, hfirst hzero, ?_⟩
                  rw [h.idle hzero] at hcard₁
                  omega
                · exact h.busy hzero

/-- So the range is shared up to every round that is come to. -/
theorem SharedTill.reaches {x : Machine M × Nat}
    (hreach : Reaches (copyRound dst src last true) (s, start) x)
    (h : RefInv roots lost noHold s) (hd : dst ∈ roots) (hs : src ∈ roots)
    (hne : dst ≠ src) (hlast : last % pgsize = 0) (htop : last ≤ usertop)
    (hempty : ∀ va, InRange start last va →
      leafAt roots s (slotOf dst va) = none) (hin : Inside last (s, start)) :
    Inside last x ∧ SharedTill roots lost dst src start last s x.1 x.2 := by
  apply hreach.invariant (I := fun x => Inside last x
    ∧ SharedTill roots lost dst src start last s x.1 x.2)
  · intro x y hx hstep
    obtain ⟨hinx, hshared⟩ := hx
    refine ⟨hinx.again hstep, ?_⟩
    rcases hshared.round hd hs hne htop hlast hempty hinx with
      hhole | ⟨t, next, hround, -, ht⟩ | ⟨t, hround, -⟩ | hround
    · rw [copyRound_hole hinx hhole] at hstep
      cases hstep
      exact hshared
    · rw [hround] at hstep
      obtain ⟨rfl, -, hlt⟩ := goOn_again hstep
      rwa [Nat.min_eq_left (Nat.le_of_lt hlt)] at ht
    · rw [hround] at hstep
      cases hstep
    · rw [hround] at hstep
      cases hstep
  · refine ⟨hin, Nat.le_refl _, Nat.le_of_lt hin.2.1,
      Totals.skip h Between.empty, fun _ => rfl, ?_⟩
    intro hpos
    exact absurd Between.empty hpos

/-- How a `copy_range` that returns has ended. -/
theorem copyRange_ended (h : RefInv roots lost noHold s) (hd : dst ∈ roots)
    (hs : src ∈ roots) (hne : dst ≠ src)
    (hempty : ∀ va, InRange start last va →
      leafAt roots s (slotOf dst va) = none)
    (hrun : copyRange fuel s dst src start last true = some (ok, s')) :
    ((∃ x, Reaches (copyRound dst src last true) (s, start) x
        ∧ CallFails dst src x) ↔ ok = false)
      ∧ (ok = true → SharedTill roots lost dst src start last s s' last)
      ∧ (ok = false →
        ∃ stop, Starved roots lost dst src start last s s' stop) := by
  unfold copyRange at hrun
  by_cases hok : start % pgsize = 0 ∧ last % pgsize = 0
      ∧ userAccess start last
  · rw [if_pos hok, copyLoop_eq, Option.join_eq_some_iff] at hrun
    obtain ⟨hstart, hlast, hlow, hlt, htop⟩ := hok
    have hin : Inside last (s, start) := by
      refine ⟨?_, hlt, hstart⟩
      show start ≠ 0
      unfold userbase at hlow
      omega
    obtain ⟨x, hreach, hstop⟩ := reaches_of_run hrun
    have hall : ∀ y, Reaches (copyRound dst src last true) (s, start) y →
        Inside last y
          ∧ SharedTill roots lost dst src start last s y.1 y.2 :=
      fun y hy =>
        SharedTill.reaches hy h hd hs hne hlast htop hempty hin
    obtain ⟨hinx, hshared⟩ := hall x hreach
    -- a call that fails in some round is the end of the loop
    have hfails : (∃ y, Reaches (copyRound dst src last true) (s, start) y
        ∧ CallFails dst src y) → ok = false := by
      intro hex
      obtain ⟨y, hy, hfail⟩ := hex
      obtain ⟨hiny, hsy⟩ := hall y hy
      have hlay : pdx1 y.2 < 511 := by
        have hlty := hiny.2.1
        exact pdx1_user (by omega)
      obtain ⟨hleaf, s₂, hnone⟩ :=
        hfail.lookup_fails hsy.totals.inv hd hs hlay
      have hend : copyRound dst src last true y = .stop (some (false, s₂)) := by
        obtain ⟨f, hf⟩ := Option.ne_none_iff_exists'.1 hleaf
        cases hfail with
        | lookup hget hv hnew =>
            obtain ⟨rfl, -⟩ := getPte_entry hsy.totals.inv.forest hs hlay hget
            unfold copyRound
            rw [hget]
            dsimp only
            rw [if_pos hv, hnone]
        | source hget _ hnew =>
            obtain ⟨rfl, -⟩ := getPte_entry hsy.totals.inv.forest hs hlay hget
            rw [hnone] at hnew
            cases hnew
        | target hget _ hnew =>
            obtain ⟨rfl, -⟩ := getPte_entry hsy.totals.inv.forest hs hlay hget
            rw [hnone] at hnew
            cases hnew
      have heq := hreach.stop_unique hstop hy hend
      cases heq
      rfl
    rcases hshared.round hd hs hne htop hlast hempty hinx with
      hhole | ⟨t, next, hround, hfar, ht⟩ | ⟨t, hround, hfail, hstarved⟩
        | hround
    · rw [copyRound_hole hinx hhole] at hstop
      cases hstop
    · rw [hround, goOn] at hstop
      by_cases hmore : next ≠ 0 ∧ next < last
      · rw [if_pos hmore] at hstop
        cases hstop
      · rw [if_neg hmore] at hstop
        cases hstop
        have hpg : 0 < pgsize := by decide
        rw [Nat.min_eq_right (by omega)] at ht
        refine ⟨⟨hfails, fun h => by cases h⟩, fun _ => ht, fun h => by cases h⟩
    · rw [hround] at hstop
      cases hstop
      exact ⟨⟨hfails, fun _ => ⟨x, hreach, hfail⟩⟩, (fun h => by cases h),
        fun _ => ⟨_, hstarved⟩⟩
    · rw [hround] at hstop
      cases hstop
  · rw [if_neg hok] at hrun
    cases hrun

/-- The accounting that sharing a range should keep: only tables of the
destination are allocated, each mapped page has one more reference, and an
error is returned exactly when a call failed. -/
structure Accounted (roots : Finset Nat) (dst src start last : Nat)
    (ok : Bool) (s s' : Machine M) : Prop where
  taken : ∀ p ∈ s.free, p ∉ s'.free → ∃ q, tableAt roots s' dst q = some p
  refs : ok = true → ∀ va p, InRange start last va →
    leafAt roots s (slotOf src va) = some p → s'.ref p = s.ref p + 1
  error : ok = false ↔ ∃ x,
    Reaches (copyRound dst src last true) (s, start) x ∧ CallFails dst src x

theorem mappedPages_eq_zero (hstart : start % pgsize = 0)
    (hlast : last % pgsize = 0) : mappedPages roots s src start last = 0
      ↔ ∀ va, InRange start last va →
        leafAt roots s (slotOf src va) = none := by
  have hpg : pgsize = 4096 := rfl
  unfold mappedPages
  rw [Between.eq_zero_iff]
  constructor
  · intro h va hva
    obtain ⟨hlo, hhi⟩ := hva
    have hnone := h (va / pgsize) (Nat.div_le_div_right hlo) (by
      rw [hpg] at hlast ⊢
      omega)
    rw [ne_eq, not_not] at hnone
    rw [← hnone]
    congr 1
    apply slotOf_eq
    rw [Nat.mul_div_cancel _ (by decide)]
  · intro h n hlo hhi
    rw [ne_eq, not_not]
    apply h
    rw [hpg] at hstart hlast hlo hhi ⊢
    exact ⟨by omega, by omega⟩

/-- A page that was shared cost one that is no table. -/
theorem Totals.not_taken {stop : Nat}
    (h : Totals roots lost dst src start stop s s')
    (hpos : mappedPages roots s src start stop ≠ 0) :
    ¬ ∀ p ∈ s.free, p ∉ s'.free → ∃ q, tableAt roots s' dst q = some p := by
  intro htaken
  obtain ⟨L, hsub, hcard, hgone, -⟩ := h.leaks
  have hsome : L.Nonempty := by
    rw [← Finset.card_pos]
    omega
  obtain ⟨p, hp⟩ := hsome
  obtain ⟨huser, -⟩ := hgone p hp
  obtain ⟨q, hq⟩ := htaken p (hsub hp) huser.2.1
  exact huser.2.2 (Or.inr ⟨dst, q, hq⟩)

/-- A `copy_range` that shares and returns keeps the accounting exactly
when it shares no page: when the source maps none, or the tables for the
first one cannot be made. In any case it takes one page more for each page
it shares, to which nothing refers, and gives each shared page a reference
for each of its addresses; and its error is right. -/
theorem copy_range_accounted_iff (h : RefInv roots lost noHold s)
    (hd : dst ∈ roots) (hs : src ∈ roots) (hne : dst ≠ src)
    (hempty : ∀ va, InRange start last va →
      leafAt roots s (slotOf dst va) = none)
    (hrun : copyRange fuel s dst src start last true = some (ok, s')) :
    (Accounted roots dst src start last ok s s'
      ↔ (∀ va, InRange start last va →
          leafAt roots s (slotOf src va) = none)
        ∨ ∃ a, FirstMapped roots s src start last a
          ∧ s.free.card < missing roots s dst a)
    ∧ (ok = false ↔ ∃ x,
        Reaches (copyRound dst src last true) (s, start) x
          ∧ CallFails dst src x)
    ∧ ∃ stop, start ≤ stop ∧ stop ≤ last ∧ (ok = true → stop = last)
      ∧ Totals roots lost dst src start stop s s' := by
  obtain ⟨herror, hshared, hstarved⟩ :=
    copyRange_ended h hd hs hne hempty hrun
  obtain ⟨hstart, hlast⟩ : start % pgsize = 0 ∧ last % pgsize = 0 := by
    unfold copyRange at hrun
    by_cases hok : start % pgsize = 0 ∧ last % pgsize = 0
        ∧ userAccess start last
    · exact ⟨hok.1, hok.2.1⟩
    · rw [if_neg hok] at hrun
      cases hrun
  -- either nothing was shared, or the page taken for one is no table
  have hsplit : ∃ stop, start ≤ stop ∧ stop ≤ last ∧ (ok = true → stop = last)
      ∧ Totals roots lost dst src start stop s s'
      ∧ (mappedPages roots s src start stop ≠ 0 →
        ∃ a, FirstMapped roots s src start last a
          ∧ missing roots s dst a ≤ s.free.card)
      ∧ (mappedPages roots s src start stop = 0 → ok = false →
        ∃ a, FirstMapped roots s src start last a
          ∧ s.free.card < missing roots s dst a) := by
    cases hok : ok with
    | true =>
        have ht := hshared hok
        exact ⟨last, ht.lo, ht.hi, fun _ => rfl, ht.totals, ht.busy,
          fun _ hno => (by cases hno)⟩
    | false =>
        obtain ⟨stop, ht⟩ := hstarved hok
        exact ⟨stop, ht.lo, ht.hi.le, fun hno => (by cases hno), ht.totals,
          ht.busy, fun hzero _ => ht.idle hzero⟩
  obtain ⟨stop, hlo, hhi, hend, htotals, hbusy, hidle⟩ := hsplit
  refine ⟨?_, herror.symm, stop, hlo, hhi, hend, htotals⟩
  constructor
  · intro hacc
    by_cases hzero : mappedPages roots s src start stop = 0
    · cases hok : ok with
      | true =>
          rw [hend hok] at hzero
          exact Or.inl ((mappedPages_eq_zero hstart hlast).1 hzero)
      | false => exact Or.inr (hidle hzero hok)
    · exact absurd hacc.taken (htotals.not_taken hzero)
  · intro hnone
    have hzero : mappedPages roots s src start stop = 0 := by
      by_contra hpos
      obtain ⟨a, hfirst, hfits⟩ := hbusy hpos
      rcases hnone with hnone | ⟨b, hfirst', hfew⟩
      · exact hfirst.mapped (hnone a ⟨hfirst.lo, hfirst.hi⟩)
      · rw [hfirst.unique hfirst'] at hfits
        omega
    obtain ⟨L, -, hcard, -, hrest⟩ := htotals.leaks
    refine ⟨?_, ?_, herror.symm⟩
    · intro p hp hout
      rcases hrest p hp hout with hL | hq
      · rw [hzero, Finset.card_eq_zero] at hcard
        rw [hcard] at hL
        exact absurd hL (Finset.notMem_empty p)
      · exact hq
    · intro hok va p hva hleaf
      rw [hend hok] at hzero
      rw [(mappedPages_eq_zero hstart hlast).1 hzero va hva] at hleaf
      cases hleaf

end Run

-- ================================================== a page is shared

/-- The address spaces of a parent and a child. -/
def family : Finset Nat := {0x80300, 0x80310}

/-- A parent with one page and a child without any: the page is shared. -/
theorem share_first : ∃ s₁ s s', allocPage cleared = some (0x80301, s₁)
    ∧ pageInsert s₁ 0x80300 0x80301 0x800000 pteUser = some (true, s)
    ∧ copyRange 1 s 0x80310 0x80300 0x800000 0x801000 true = some (true, s')
    ∧ RefInv family ∅ noHold s
    ∧ leafAt family s (slotOf 0x80300 0x800000) = some 0x80301
    ∧ ∀ va, leafAt family s (slotOf 0x80310 va) = none := by
  obtain ⟨s₁, s, halloc, hrun, h, hleaf, hempty, -⟩ := parent_first
  have hshown : ((allocPage cleared).bind fun a =>
      (pageInsert a.2 0x80300 0x80301 0x800000 pteUser).bind fun c =>
        (copyRange 1 c.2 0x80310 0x80300 0x800000 0x801000 true).map fun e =>
          e.1) = some true := by
    decide +kernel
  rw [halloc, Option.bind_some, hrun, Option.bind_some] at hshown
  cases hcopy : copyRange 1 s 0x80310 0x80300 0x800000 0x801000 true with
  | none =>
      rw [hcopy] at hshown
      cases hshown
  | some e =>
      obtain ⟨ok, s'⟩ := e
      rw [hcopy, Option.map_some, Option.some.injEq] at hshown
      obtain rfl : ok = true := hshown
      exact ⟨s₁, s, s', halloc, hrun, hcopy, h, hleaf, hempty⟩

theorem copy_range_accounted_iff_first : ∃ s s' : Machine lowestFirst,
    copyRange 1 s 0x80310 0x80300 0x800000 0x801000 true = some (true, s')
      ∧ Totals family ∅ 0x80310 0x80300 0x800000 0x801000 s s' := by
  obtain ⟨-, s, s', -, -, hrun, h, -, hempty⟩ := share_first
  obtain ⟨-, -, stop, -, -, hend, htotals⟩ :=
    copy_range_accounted_iff h (by decide) (by decide) (by decide)
      (fun va _ => hempty va) hrun
  rw [hend rfl] at htotals
  exact ⟨s, s', hrun, htotals⟩

/-- Sharing one page takes a page that is no table of the child. -/
theorem share_first_not_accounted : ∃ s₁ s s',
    allocPage cleared = some (0x80301, s₁)
      ∧ pageInsert s₁ 0x80300 0x80301 0x800000 pteUser = some (true, s)
      ∧ copyRange 1 s 0x80310 0x80300 0x800000 0x801000 true
        = some (true, s')
      ∧ ¬ Accounted family 0x80310 0x80300 0x800000 0x801000 true s s' := by
  obtain ⟨s₁, s, s', halloc, hins, hrun, h, hleaf, hempty⟩ := share_first
  refine ⟨s₁, s, s', halloc, hins, hrun, ?_⟩
  intro hacc
  obtain ⟨-, hshared, -⟩ := copyRange_ended h (by decide) (by decide)
    (by decide) (fun va _ => hempty va) hrun
  apply (hshared rfl).totals.not_taken _ hacc.taken
  intro hzero
  have hnone := (mappedPages_eq_zero (by decide) (by decide)).1 hzero 0x800000
    ⟨by decide, by decide⟩
  rw [hleaf] at hnone
  cases hnone

end Ucore.Cow
