/-
Page reference counts are mapping counts.

`RefInv` says that the reference count of every page that is no table is
the number of slots, over all page tables, whose entry maps it, plus the
references held in hand: `page_insert` takes its reference before it looks
at the old entry, so inside it one reference is not yet a mapping. Moving
a reference between the two (`RefInv.store`), taking one
(`RefInv.pageRefInc`), dropping one (`RefInv.pageRefDec`) and giving up a
page nobody refers to (`RefInv.freePage`) are the four steps the functions
of kern/mm/pmm.c are made of.

`Frees` says which pages an operation gives to `free_page`: those, once
each, whose last mapping it removed.
-/
import Ucore.Lib.Count
import Ucore.Mm.Proofs.PageTable
import Mathlib.Data.Finset.Prod
import Mathlib.Logic.Relation

namespace Ucore.Mm

variable {M : PmmManager} {roots : Finset Nat} {lost : Set Nat} {s s' : Machine M}
  {hold hold' : Nat → Nat}

-- ======================================================== the counts

/-- All slots of a set of page tables. The set is never enumerated. -/
@[irreducible] def slots (roots : Finset Nat) : Finset Slot :=
  roots ×ˢ (Finset.range 511 ×ˢ (Finset.range 512 ×ˢ Finset.range 512))

/-- The number of valid page table entries that map a page. -/
def mapCount (roots : Finset Nat) (s : Machine M) (p : Nat) : Nat :=
  occurs (slots roots) (leafAt roots s) p

/-- One reference in hand to `page`, on top of `hold`. -/
def holdOne (hold : Nat → Nat) (page p : Nat) : Nat :=
  hold p + if p = page then 1 else 0

/-- Nothing in hand. -/
def noHold : Nat → Nat := fun _ => 0

/-- Every page that is no table has one reference for each slot that maps
it and each reference in hand; pages that are mapped or in hand are user
pages. -/
structure RefInv (roots : Finset Nat) (lost : Set Nat) (hold : Nat → Nat) (s : Machine M) :
    Prop where
  forest : Forest roots lost s
  ref_eq : ∀ {p}, ¬ IsTable roots lost s p →
    s.ref p = (mapCount roots s p + hold p : Nat)
  mapped : ∀ {x p}, x ∈ slots roots → leafAt roots s x = some p →
    UserPage roots lost s p
  held : ∀ {p}, 0 < hold p → UserPage roots lost s p

/-- Between `s` and `s'` exactly the pages whose mappings came down to
zero with no reference in hand went to `free_page`, once each. -/
def Frees (roots : Finset Nat) (hold : Nat → Nat) (s s' : Machine M) :
    Prop :=
  ∃ fs, s'.freed = fs ++ s.freed ∧ fs.Nodup ∧
    ∀ p, p ∈ fs ↔ 0 < mapCount roots s p ∧ mapCount roots s' p + hold p = 0

theorem mem_slots {r d1 d0 t : Nat} : (r, d1, d0, t) ∈ slots roots
    ↔ r ∈ roots ∧ d1 < 511 ∧ d0 < 512 ∧ t < 512 := by
  simp [slots]

theorem slotOf_mem {r la : Nat} (hr : r ∈ roots) (hla : pdx1 la < 511) :
    slotOf r la ∈ slots roots :=
  mem_slots.mpr ⟨hr, hla, pdx0_lt la, ptx_lt la⟩

theorem mapCount_congr
    (h : ∀ x, pteAt roots s' x = pteAt roots s x) (p : Nat) :
    mapCount roots s' p = mapCount roots s p :=
  Occurs.congr fun x _ => by rw [leafAt, leafAt, h]

theorem mapCount_pos {p : Nat} : 0 < mapCount roots s p
    ↔ ∃ x ∈ slots roots, leafAt roots s x = some p :=
  Occurs.pos_iff

theorem RefInv.mapped_of_pos (h : RefInv roots lost hold s) {p : Nat}
    (hp : 0 < mapCount roots s p) : UserPage roots lost s p := by
  obtain ⟨x, hx, hleaf⟩ := mapCount_pos.mp hp
  exact h.mapped hx hleaf

/-- Growing the tables changes no count. -/
theorem RefInv.grown (h : RefInv roots lost hold s) (g : Grown roots lost s s') :
    RefInv roots lost hold s' := by
  refine ⟨g.forest, ?_, ?_, fun hp => g.userPage (h.held hp)⟩
  · intro p hp
    rw [g.ref_eq hp, mapCount_congr g.pte_eq]
    exact h.ref_eq fun hs => hp (g.isTable hs)
  · intro x p hx hleaf
    rw [leafAt, g.pte_eq] at hleaf
    exact g.userPage (h.mapped hx hleaf)

-- ==================================================== the four steps

section Steps

variable {r d1 d0 t f w page : Nat}

/-- What a store to a slot does to the counts. -/
theorem mapCount_setWord (h : Forest roots lost s)
    (hf : tableAt roots s r [d0, d1] = some f)
    (hx : (r, d1, d0, t) ∈ slots roots) (p : Nat) :
    mapCount roots (s.setWord (f, t) w) p
        + (if leafAt roots s (r, d1, d0, t) = some p then 1 else 0)
      = mapCount roots s p + if frameOf w = some p then 1 else 0 := by
  have hleaf : leafAt roots (s.setWord (f, t) w) (r, d1, d0, t)
      = frameOf w := by
    rw [leafAt, pteAt_setWord h hf, if_pos rfl]
  have hother : ∀ y ∈ slots roots, y ≠ (r, d1, d0, t) →
      leafAt roots (s.setWord (f, t) w) y = leafAt roots s y := by
    intro y _ hne
    rw [leafAt, pteAt_setWord h hf, if_neg hne, leafAt]
  have hchange := Occurs.change (a := p) hx hother
  rw [hleaf] at hchange
  exact hchange

/-- A store to a slot moves references: the old page's goes from the entry
into the hand, the new page's from the hand into the entry. -/
theorem RefInv.store (h : RefInv roots lost hold s)
    (hf : tableAt roots s r [d0, d1] = some f)
    (hx : (r, d1, d0, t) ∈ slots roots)
    (hw : ∀ p, frameOf w = some p → UserPage roots lost s p)
    (hhold : ∀ p,
      hold' p + (if frameOf w = some p then 1 else 0) = hold p
        + if leafAt roots s (r, d1, d0, t) = some p then 1 else 0) :
    RefInv roots lost hold' (s.setWord (f, t) w) := by
  have huser : ∀ {p}, UserPage roots lost s p →
      UserPage roots lost (s.setWord (f, t) w) p := by
    intro p hp
    refine ⟨hp.1, hp.2.1, ?_⟩
    rw [isTable_setWord h.forest hf]
    exact hp.2.2
  refine ⟨h.forest.setWord hf, ?_, ?_, ?_⟩
  · intro p hp
    rw [isTable_setWord h.forest hf] at hp
    have hcount := mapCount_setWord (w := w) h.forest hf hx p
    have hmove := hhold p
    have href := h.ref_eq hp
    rw [setWord_ref, href]
    congr 1
    omega
  · intro y p hy hleaf
    rw [leafAt, pteAt_setWord h.forest hf] at hleaf
    split at hleaf
    case isTrue => exact huser (hw p hleaf)
    case isFalse => exact huser (h.mapped hy hleaf)
  · intro p hp
    have hmove := hhold p
    by_cases hleaf : leafAt roots s (r, d1, d0, t) = some p
    · exact huser (h.mapped hx hleaf)
    · rw [if_neg hleaf] at hmove
      exact huser (h.held (by omega))

/-- The invariant sees counts through `ref`, tables and slots through the
contents of tables, and the free pages. -/
theorem RefInv.congr (h : RefInv roots lost hold s)
    (hmem : ∀ r path f, tableAt roots s r path = some f →
      s'.mem f = s.mem f)
    (hfree : ∀ p, p ∈ s'.free → p ∈ s.free ∨
      UserPage roots lost s p ∧ mapCount roots s p = 0)
    (href : ∀ p, ¬ IsTable roots lost s p →
      s'.ref p = (mapCount roots s p + hold' p : Nat))
    (hheld : ∀ p, 0 < hold' p → UserPage roots lost s p ∧ p ∉ s'.free) :
    RefInv roots lost hold' s' := by
  have htable : ∀ r path, tableAt roots s' r path = tableAt roots s r path :=
    tableAt_congr fun r path f hf _ => hmem r path f hf
  have hpte : ∀ x, pteAt roots s' x = pteAt roots s x := pteAt_congr hmem
  have hist : ∀ p, IsTable roots lost s' p ↔ IsTable roots lost s p := by
    intro p
    simp only [IsTable, htable]
  refine ⟨h.forest.congr htable ?_, ?_, ?_, ?_⟩
  · intro p hp
    rcases hfree p hp with hin | ⟨huser, _⟩
    · exact Or.inl hin
    · exact Or.inr huser
  · intro p hp
    rw [hist] at hp
    rw [href p hp, mapCount_congr hpte]
  · intro x p hx hleaf
    rw [leafAt, hpte] at hleaf
    obtain ⟨hm, hout, hnot⟩ := h.mapped hx hleaf
    refine ⟨hm, ?_, by rwa [hist]⟩
    intro hin
    rcases hfree p hin with hin | ⟨_, hzero⟩
    · exact hout hin
    · have hpos : 0 < mapCount roots s p := mapCount_pos.mpr ⟨x, hx, hleaf⟩
      omega
  · intro p hp
    obtain ⟨⟨hm, _, hnot⟩, hout⟩ := hheld p hp
    exact ⟨hm, hout, by rwa [hist]⟩

/-- Taking a reference puts one in hand. -/
theorem RefInv.pageRefInc (h : RefInv roots lost hold s)
    (hpage : UserPage roots lost s page) :
    RefInv roots lost (holdOne hold page) (pageRefInc s page) := by
  refine h.congr (fun _ _ _ _ => rfl) (fun p hp => Or.inl hp) ?_ ?_
  · intro p hp
    have href := h.ref_eq hp
    rw [Mm.pageRefInc, setPageRef_ref, holdOne, pageRef]
    by_cases heq : p = page
    · subst heq
      rw [if_pos rfl, if_pos rfl]
      omega
    · rw [if_neg heq, if_neg heq]
      omega
  · intro p hp
    rw [holdOne] at hp
    by_cases heq : p = page
    · subst heq
      exact ⟨hpage, hpage.2.1⟩
    · rw [if_neg heq] at hp
      exact ⟨h.held hp, (h.held hp).2.1⟩

/-- Dropping a reference takes one out of the hand. -/
theorem RefInv.pageRefDec (h : RefInv roots lost (holdOne hold page) s) :
    RefInv roots lost hold (pageRefDec s page) := by
  refine h.congr (fun _ _ _ _ => rfl) (fun p hp => Or.inl hp) ?_ ?_
  · intro p hp
    have href := h.ref_eq hp
    rw [holdOne] at href
    rw [Mm.pageRefDec, setPageRef_ref, pageRef]
    by_cases hpage : p = page
    · subst hpage
      rw [if_pos rfl] at href ⊢
      omega
    · rw [if_neg hpage] at href ⊢
      omega
  · intro p hp
    have huser := h.held (p := p) (Nat.lt_of_lt_of_le hp (Nat.le_add_right _ _))
    exact ⟨huser, huser.2.1⟩

/-- A page that is neither mapped nor in hand may be freed. -/
theorem RefInv.freePage (h : RefInv roots lost hold s)
    (huser : UserPage roots lost s page)
    (hzero : mapCount roots s page + hold page = 0) :
    RefInv roots lost hold (freePage s page) := by
  refine h.congr (fun _ _ _ _ => rfl) ?_ ?_ ?_
  · intro p hp
    rw [freePage_free s page huser.2.1, Finset.mem_insert] at hp
    rcases hp with rfl | hp
    · exact Or.inr ⟨huser, by omega⟩
    · exact Or.inl hp
  · intro p hp
    rw [freePage_ref]
    split
    case isTrue heq =>
        subst heq
        rw [hzero]
        rfl
    case isFalse => exact h.ref_eq hp
  · intro p hp
    refine ⟨h.held hp, ?_⟩
    rw [freePage_free s page huser.2.1, Finset.mem_insert]
    rintro (rfl | hin)
    · omega
    · exact (h.held hp).2.1 hin

end Steps

-- =================================================== page_remove_pte

section Remove

variable {r d1 d0 t f : Nat}

/-- `page_remove_pte` empties a slot and drops the reference, giving up
the page with the last one. -/
theorem pageRemovePte_spec (h : RefInv roots lost hold s)
    (hf : tableAt roots s r [d0, d1] = some f)
    (hx : (r, d1, d0, t) ∈ slots roots) :
    ∃ s', pageRemovePte s (f, t) = some s' ∧ RefInv roots lost hold s'
      ∧ Edits roots lost (· = (r, d1, d0, t)) s s'
      ∧ leafAt roots s' (r, d1, d0, t) = none
      ∧ Frees roots hold s s' ∧ s.free ⊆ s'.free := by
  have hpte : pteAt roots s (r, d1, d0, t) = s.word (f, t) := by
    simp only [pteAt, hf]
    rfl
  unfold pageRemovePte
  cases hleaf : frameOf (s.word (f, t)) with
  | none =>
      -- nothing is mapped here, and nothing happens
      rw [if_neg (frameOf_eq_none_iff.mp hleaf)]
      refine ⟨s, rfl, h, Edits.refl _ s, ?_, ⟨[], rfl, List.nodup_nil, ?_⟩,
        Finset.Subset.refl _⟩
      · rw [leafAt, hpte, hleaf]
      · intro p
        simp only [List.not_mem_nil, false_iff]
        omega
  | some page =>
      have hslot : leafAt roots s (r, d1, d0, t) = some page := by
        rw [leafAt, hpte, hleaf]
      have huser := h.mapped hx hslot
      have hv : hasFlag (s.word (f, t)) pteV := by
        by_contra hno
        rw [frameOf_eq_none_iff.mpr hno] at hleaf
        cases hleaf
      -- the entry's reference comes into the hand and is dropped there
      let s₁ := s.setWord (f, t) 0
      have h₁ : RefInv roots lost (holdOne hold page) s₁ := by
        refine h.store hf hx (fun p hp => ?_) fun p => ?_
        · rw [frameOf_zero] at hp
          cases hp
        · rw [hslot, frameOf_zero, holdOne]
          simp [eq_comm]
      have h₂ : RefInv roots lost hold (pageRefDec s₁ page) := h₁.pageRefDec
      have hedits : Edits roots lost (· = (r, d1, d0, t)) s (pageRefDec s₁ page) :=
        (Edits.setWord h.forest hf).of_mem (pageRefDec_mem s₁ page)
      have hgone : leafAt roots s₁ (r, d1, d0, t) = none := by
        rw [leafAt, pteAt_setWord h.forest hf, if_pos rfl, frameOf_zero]
      have hcount : ∀ p, mapCount roots s₁ p
          + (if page = p then 1 else 0) = mapCount roots s p := by
        intro p
        have := mapCount_setWord (w := 0) h.forest hf hx p
        rw [hslot, frameOf_zero] at this
        simpa using this
      have huser₂ : UserPage roots lost (pageRefDec s₁ page) page := by
        refine ⟨huser.1, huser.2.1, ?_⟩
        rintro (hlost | ⟨r', path, hpath⟩)
        · exact huser.2.2 (Or.inl hlost)
        · rw [tableAt_of_mem (pageRefDec_mem s₁ page),
            tableAt_setWord h.forest hf] at hpath
          exact huser.2.2 (Or.inr ⟨r', path, hpath⟩)
      have hone : (pageRefDec s₁ page).ref page = 0 ↔
          mapCount roots s₁ page + hold page = 0 := by
        rw [h₂.ref_eq huser₂.2.2]
        exact Int.natCast_eq_zero
      rw [if_pos hv, huser.1.pte2page_eq hleaf]
      dsimp only
      by_cases hzero : (pageRefDec s₁ page).ref page = 0
      · -- the last reference is gone: the page is given up
        have hzero' := hone.mp hzero
        have h₃ : RefInv roots lost hold (freePage (pageRefDec s₁ page) page) :=
          h₂.freePage huser₂ hzero'
        refine ⟨freePage (pageRefDec s₁ page) page, ?_, h₃,
          hedits.of_mem (freePage_mem _ page), hgone,
          ⟨[page], rfl, by simp, ?_⟩, ?_⟩
        · have hcond : pageRef (pageRefDec s page) page = 0 := hzero
          rw [if_pos hcond]
          rfl
        · intro p
          have hp := hcount p
          have hsame : mapCount roots (freePage (pageRefDec s₁ page) page) p
              = mapCount roots s₁ p := rfl
          rw [List.mem_singleton, hsame]
          constructor
          · rintro rfl
            rw [if_pos rfl] at hp
            omega
          · rintro ⟨hpos, hnone⟩
            by_contra hne
            rw [if_neg (Ne.symm hne)] at hp
            omega
        · rw [freePage_free _ page huser₂.2.1]
          exact Finset.subset_insert page _
      · refine ⟨pageRefDec s₁ page, ?_, h₂, hedits, hgone,
          ⟨[], rfl, List.nodup_nil, ?_⟩, Finset.Subset.refl _⟩
        · have hcond : ¬ pageRef (pageRefDec s page) page = 0 := hzero
          rw [if_neg hcond]
          rfl
        · intro p
          have hp := hcount p
          have hsame : mapCount roots (pageRefDec s₁ page) p
              = mapCount roots s₁ p := rfl
          simp only [List.not_mem_nil, false_iff]
          rintro ⟨hpos, hnone⟩
          rw [hsame] at hnone
          by_cases hpage : page = p
          · subst hpage
            exact hzero (hone.mpr hnone)
          · rw [if_neg hpage] at hp
            omega

end Remove

-- ======================================= page_remove and page_insert

section Operations

variable {r la page perm : Nat}

/-- An operation that takes no count down frees nothing. -/
theorem Frees.none (hfreed : s'.freed = s.freed)
    (hcount : ∀ p, mapCount roots s p ≤ mapCount roots s' p) :
    Frees roots hold s s' := by
  refine ⟨[], hfreed, List.nodup_nil, fun p => ?_⟩
  have := hcount p
  simp only [List.not_mem_nil, false_iff]
  omega

/-- Two pieces of work one after the other, neither adding a mapping. -/
theorem Frees.trans {s₁ s₂ s₃ : Machine M} (hf : Frees roots noHold s₁ s₂)
    (hf' : Frees roots noHold s₂ s₃)
    (hle : ∀ p, mapCount roots s₂ p ≤ mapCount roots s₁ p)
    (hle' : ∀ p, mapCount roots s₃ p ≤ mapCount roots s₂ p) :
    Frees roots noHold s₁ s₃ := by
  obtain ⟨fs, hfreed, hnodup, hmem⟩ := hf
  obtain ⟨fs', hfreed', hnodup', hmem'⟩ := hf'
  refine ⟨fs' ++ fs, ?_, ?_, ?_⟩
  · rw [hfreed', hfreed, List.append_assoc]
  · refine List.nodup_append.mpr ⟨hnodup', hnodup, ?_⟩
    rintro p hp' _ hp rfl
    have h1 := (hmem' p).mp hp'
    have h2 := (hmem p).mp hp
    omega
  · intro p
    have h1 := hmem p
    have h2 := hmem' p
    have h3 := hle p
    have h4 := hle' p
    rw [List.mem_append, h1, h2]
    simp only [noHold]
    omega

/-- Emptying slots takes no page's count up. -/
theorem mapCount_le_of_edit (e : Edits roots lost (· = slotOf r la) s s')
    (hgone : leafAt roots s' (slotOf r la) = none) (p : Nat) :
    mapCount roots s' p ≤ mapCount roots s p := by
  apply Finset.card_le_card
  intro x hx
  rw [Finset.mem_filter] at hx ⊢
  refine ⟨hx.1, ?_⟩
  by_cases heq : x = slotOf r la
  · rw [heq, hgone] at hx
    cases hx.2
  · rw [← hx.2, leafAt, leafAt, e.pte_eq heq]

/-- `page_remove` empties the slot of an address. -/
theorem pageRemove_spec (h : RefInv roots lost hold s) (hr : r ∈ roots)
    (hla : pdx1 la < 511) :
    ∃ s', pageRemove s r la = some s' ∧ RefInv roots lost hold s'
      ∧ Edits roots lost (· = slotOf r la) s s'
      ∧ leafAt roots s' (slotOf r la) = none
      ∧ Frees roots hold s s' := by
  unfold pageRemove
  rw [getPte_look h.forest hr hla]
  cases hf : tableAt roots s r [pdx0 la, pdx1 la] with
  | none =>
      refine ⟨s, rfl, h, Edits.refl _ s, ?_, Frees.none rfl fun _ => le_rfl⟩
      simp only [leafAt, pteAt, slotOf, hf, frameOf_zero]
  | some f =>
      obtain ⟨s', hrun, hinv, he, hgone, hfrees, -⟩ :=
        pageRemovePte_spec h hf (slotOf_mem hr hla)
      exact ⟨s', hrun, hinv, he, hgone, hfrees⟩

/-- Storing an entry for a page in hand into an empty slot turns the
reference in hand into a mapping. -/
theorem install_spec {f type : Nat}
    (h : RefInv roots lost (holdOne noHold page) s)
    (hf : tableAt roots s r [pdx0 la, pdx1 la] = some f)
    (hx : slotOf r la ∈ slots roots)
    (hempty : leafAt roots s (slotOf r la) = none) (htype : type < 2 ^ 10) :
    RefInv roots lost noHold (s.setWord (f, ptx la) (pteCreate page type))
      ∧ ∀ p, mapCount roots
          (s.setWord (f, ptx la) (pteCreate page type)) p
        = mapCount roots s p + holdOne noHold page p := by
  have huser : UserPage roots lost s page := h.held (by simp [holdOne])
  have hframe : frameOf (pteCreate page type) = some page :=
    frameOf_pteCreate huser.1.lt htype
  refine ⟨h.store hf hx ?_ ?_, ?_⟩
  · intro p hp
    rw [hframe] at hp
    cases hp
    exact huser
  · intro p
    unfold slotOf at hempty
    rw [hframe, hempty]
    simp [holdOne, eq_comm]
  · intro p
    have hcount := mapCount_setWord (w := pteCreate page type) h.forest hf hx p
    unfold slotOf at hempty
    rw [hframe, hempty] at hcount
    simpa [holdOne, noHold, eq_comm] using hcount

/-- `page_insert` of a user page: either the tables could not be made and
no slot changed, or the slot of the address maps the page. In both cases
counts and references agree again, and the page that was mapped there
before is given up if this was its last mapping. -/
theorem pageInsert_spec (h : RefInv roots lost noHold s) (hr : r ∈ roots)
    (hla : pdx1 la < 511) (huser : UserPage roots lost s page)
    (hperm : perm < 2 ^ 10) :
    ∃ b s', pageInsert s r page la perm = some (b, s')
      ∧ RefInv roots lost noHold s' ∧ Edits roots lost (· = slotOf r la) s s'
      ∧ Frees roots noHold s s'
      ∧ (b = true → pteAt roots s' (slotOf r la)
          = pteCreate page (pteV ||| perm))
      ∧ (b = false → Grown roots lost s s' ∧ s'.free = ∅)
      ∧ (tableAt roots s r [pdx0 la, pdx1 la] ≠ none →
          b = true ∧ s.free ⊆ s'.free) := by
  obtain ⟨o, s₁, hget, hgrown, hptep, hnull, hkept, -⟩ :=
    getPte_create h.forest hr hla
  have h₁ := h.grown hgrown
  unfold pageInsert
  rw [hget]
  cases o with
  | none =>
      obtain ⟨hempty, hnone⟩ := hnull rfl
      refine ⟨false, s₁, rfl, h₁, hgrown.edits _, ?_,
        fun hb => (by cases hb), fun _ => ⟨hgrown, hempty⟩,
        fun hne => absurd hnone hne⟩
      exact Frees.none hgrown.freed_eq
        fun p => (mapCount_congr hgrown.pte_eq p).ge
  | some ptep =>
      obtain ⟨f, rfl, hf⟩ := hptep ptep rfl
      have hx := slotOf_mem hr hla
      have huser₁ := hgrown.userPage huser
      have htype : pteV ||| perm < 2 ^ 10 :=
        Nat.or_lt_two_pow (by decide) hperm
      -- the new reference, taken first
      let s₂ := pageRefInc s₁ page
      have h₂ : RefInv roots lost (holdOne noHold page) s₂ :=
        h₁.pageRefInc huser₁
      have htable₂ : ∀ r' path,
          tableAt roots s₂ r' path = tableAt roots s₁ r' path :=
        tableAt_of_mem (pageRefInc_mem s₁ page)
      have hf₂ : tableAt roots s₂ r [pdx0 la, pdx1 la] = some f := by
        rw [htable₂, hf]
      have hedits₂ : Edits roots lost (· = slotOf r la) s s₂ :=
        (hgrown.edits _).of_mem (pageRefInc_mem s₁ page)
      have hcount₂ : ∀ p, mapCount roots s₂ p = mapCount roots s p :=
        fun p => mapCount_congr hgrown.pte_eq p
      have hfree₂ : tableAt roots s r [pdx0 la, pdx1 la] ≠ none →
          s.free ⊆ s₂.free := by
        intro hne
        obtain rfl := hkept hne
        exact Finset.Subset.refl _
      have hword : leafAt roots s₂ (slotOf r la)
          = frameOf (s₂.word (f, ptx la)) := by
        simp only [leafAt, pteAt, slotOf, hf₂]
        rfl
      dsimp only
      cases hleaf : frameOf (s₂.word (f, ptx la)) with
      | none =>
          -- an empty slot: the reference in hand becomes its mapping
          rw [hleaf] at hword
          obtain ⟨hinv, hcount⟩ := install_spec h₂ hf₂ hx hword htype
          rw [if_neg (frameOf_eq_none_iff.mp hleaf)]
          refine ⟨true, _, rfl, hinv,
            hedits₂.trans (Edits.setWord h₂.forest hf₂), ?_, ?_,
            fun hb => (by cases hb), fun hne => ⟨rfl, hfree₂ hne⟩⟩
          · refine Frees.none hgrown.freed_eq fun p => ?_
            rw [← hcount₂ p]
            exact (Nat.le_add_right _ _).trans (hcount p).ge
          · intro _
            exact (pteAt_setWord h₂.forest hf₂ _).trans (if_pos rfl)
      | some p =>
          rw [hleaf] at hword
          have hp := h₂.mapped hx hword
          have hv : hasFlag (s₂.word (f, ptx la)) pteV := by
            by_contra hno
            rw [frameOf_eq_none_iff.mpr hno] at hleaf
            cases hleaf
          rw [if_pos hv, hp.1.pte2page_eq hleaf]
          dsimp only
          by_cases hpage : p = page
          · -- the page itself is mapped here already: the reference in
            -- hand is dropped again
            subst hpage
            rw [if_pos rfl]
            have h₃ : RefInv roots lost noHold (pageRefDec s₂ p) := h₂.pageRefDec
            have hf₃ : tableAt roots (pageRefDec s₂ p) r [pdx0 la, pdx1 la]
                = some f := by
              rw [tableAt_of_mem (pageRefDec_mem s₂ p), hf₂]
            have hframe : frameOf (pteCreate p (pteV ||| perm)) = some p :=
              frameOf_pteCreate hp.1.lt htype
            have hsame : leafAt roots (pageRefDec s₂ p) (slotOf r la)
                = some p := hword
            refine ⟨true, _, rfl, h₃.store hf₃ hx ?_ ?_,
              (hedits₂.of_mem (pageRefDec_mem s₂ p)).trans
                (Edits.setWord h₃.forest hf₃), ?_, ?_,
              fun hb => (by cases hb), fun hne => ⟨rfl, hfree₂ hne⟩⟩
            · intro q hq
              rw [hframe] at hq
              cases hq
              exact h₃.mapped hx hsame
            · intro q
              unfold slotOf at hsame
              rw [hframe, hsame]
            · refine Frees.none hgrown.freed_eq fun q => ?_
              have hcount := mapCount_setWord
                (w := pteCreate p (pteV ||| perm)) h₃.forest hf₃ hx q
              unfold slotOf at hsame
              rw [hframe, hsame] at hcount
              have hq : mapCount roots (pageRefDec s₂ p) q
                  = mapCount roots s q := hcount₂ q
              have hge := Nat.add_right_cancel hcount
              exact (hge.trans hq).ge
            · intro _
              exact (pteAt_setWord h₃.forest hf₃ _).trans (if_pos rfl)
          · -- another page is mapped here: it is removed first
            rw [if_neg hpage]
            obtain ⟨s₃, hremove, h₃, hedits₃, hgone, ⟨fs, hfreed, hnodup,
              hmem⟩, hfree₃⟩ := pageRemovePte_spec h₂ hf₂ hx
            have hf₃ := hedits₃.mono hf₂
            obtain ⟨hinv, hcount⟩ := install_spec h₃ hf₃ hx hgone htype
            have hremove' : pageRemovePte (pageRefInc s₁ page) (f, ptx la)
                = some s₃ := hremove
            rw [hremove']
            refine ⟨true, _, rfl, hinv,
              (hedits₂.trans hedits₃).trans (Edits.setWord h₃.forest hf₃),
              ⟨fs, ?_, hnodup, ?_⟩, ?_, fun hb => (by cases hb),
              fun hne => ⟨rfl, (hfree₂ hne).trans hfree₃⟩⟩
            · have hfreed' : s₃.freed = fs ++ s₁.freed := hfreed
              rw [setWord_freed, hfreed', hgrown.freed_eq]
            · intro q
              have hq := hcount q
              rw [hmem q, hcount₂ q, hq]
              simp [noHold]
            · intro _
              exact (pteAt_setWord h₃.forest hf₃ _).trans (if_pos rfl)

/-- A page that is allocated enters as a user page without references. -/
theorem RefInv.allocPage {page : Nat} (h : RefInv roots lost noHold s)
    (halloc : allocPage s = some (page, s')) :
    RefInv roots lost noHold s' ∧ UserPage roots lost s' page ∧ s'.ref page = 0
      ∧ Frees roots noHold s s' := by
  obtain ⟨hin, hfree, hmem, href, hfreed⟩ := allocPage_spec halloc
  have hout : ¬ IsTable roots lost s page := by
    rintro (hlost | ⟨r, path, hf⟩)
    · exact h.forest.lostNotFree hlost hin
    · exact h.forest.notFree hf hin
  have hcount : mapCount roots s page = 0 := by
    by_contra hne
    exact (h.mapped_of_pos (Nat.pos_of_ne_zero hne)).2.1 hin
  have hinv : RefInv roots lost noHold s' := by
    refine h.congr (fun _ _ f _ => by rw [hmem]) ?_ ?_ fun p hp => absurd hp (Nat.lt_irrefl 0)
    · intro p hp
      rw [hfree] at hp
      exact Or.inl (Finset.mem_of_mem_erase hp)
    · intro p hp
      rw [href]
      exact h.ref_eq hp
  refine ⟨hinv, ⟨h.forest.freeManaged hin, ?_, ?_⟩, ?_, ?_⟩
  · rw [hfree]
    exact Finset.notMem_erase page _
  · rintro (hlost | ⟨r, path, hf⟩)
    · exact hout (Or.inl hlost)
    · rw [tableAt_of_mem hmem] at hf
      exact hout (Or.inr ⟨r, path, hf⟩)
  · rw [href, h.ref_eq hout, hcount]
    rfl
  · refine Frees.none hfreed fun p => ?_
    exact (mapCount_congr (pteAt_congr fun _ _ f _ => by rw [hmem]) p).ge

end Operations

-- ======================================================= unmap_range

section Unmap

variable {r lo mid hi start last : Nat}

/-- The addresses of a range. -/
def InRange (lo hi va : Nat) : Prop := lo ≤ va ∧ va < hi

/-- The slots of some addresses. -/
def SlotAt (r : Nat) (A : Nat → Prop) (x : Slot) : Prop :=
  ∃ va, A va ∧ x = slotOf r va

/-- From `s` to `s'` the slots of a range were emptied and nothing else
changed. -/
structure Unmapped (roots : Finset Nat) (lost : Set Nat) (r lo hi : Nat) (s s' : Machine M) :
    Prop where
  inv : RefInv roots lost noHold s'
  edits : Edits roots lost (SlotAt r (InRange lo hi)) s s'
  gone : ∀ {va}, lo ≤ va → va < hi → leafAt roots s' (slotOf r va) = none
  le : ∀ p, mapCount roots s' p ≤ mapCount roots s p
  frees : Frees roots noHold s s'

theorem Unmapped.trans {s₁ s₂ s₃ : Machine M} (hlo : lo ≤ mid)
    (hhi : mid ≤ hi) (h : Unmapped roots lost r lo mid s₁ s₂)
    (h' : Unmapped roots lost r mid hi s₂ s₃) : Unmapped roots lost r lo hi s₁ s₃ := by
  refine ⟨h'.inv, ?_, ?_, fun p => (h'.le p).trans (h.le p),
    h.frees.trans h'.frees h.le h'.le⟩
  · refine (h.edits.weaken ?_).trans (h'.edits.weaken ?_)
    · rintro x ⟨va, ⟨h1, h2⟩, rfl⟩
      exact ⟨va, ⟨h1, by omega⟩, rfl⟩
    · rintro x ⟨va, ⟨h1, h2⟩, rfl⟩
      exact ⟨va, ⟨by omega, h2⟩, rfl⟩
  · intro va h1 h2
    by_cases hin : SlotAt r (InRange mid hi) (slotOf r va)
    · obtain ⟨va', ⟨h1', h2'⟩, heq⟩ := hin
      rw [heq]
      exact h'.gone h1' h2'
    · have hva : va < mid := by
        by_contra hge
        exact hin ⟨va, ⟨by omega, h2⟩, rfl⟩
      rw [leafAt, h'.edits.pte_eq hin]
      exact h.gone h1 hva

/-- Where there is no page table, nothing is mapped. -/
theorem Unmapped.skip (h : RefInv roots lost noHold s)
    (hnone : tableAt roots s r [pdx0 start, pdx1 start] = none)
    (hhi : hi ≤ rounddown (start + ptsize) ptsize) :
    Unmapped roots lost r start hi s s := by
  refine ⟨h, Edits.refl _ s, ?_, fun p => le_rfl,
    Frees.none rfl fun _ => le_rfl⟩
  intro va h1 h2
  obtain ⟨hd1, hd0⟩ := pdx_of_lt_rounddown h1 (by omega)
  simp only [leafAt, pteAt, slotOf, hd1, hd0, hnone, frameOf_zero]

/-- Emptying the slot of a page unmaps the page. -/
theorem Unmapped.page (hstart : start % pgsize = 0)
    (hinv : RefInv roots lost noHold s')
    (he : Edits roots lost (· = slotOf r start) s s')
    (hgone : leafAt roots s' (slotOf r start) = none)
    (hfrees : Frees roots noHold s s') :
    Unmapped roots lost r start (start + pgsize) s s' := by
  refine ⟨hinv, he.weaken ?_, ?_, mapCount_le_of_edit he hgone, hfrees⟩
  · rintro x rfl
    exact ⟨start, ⟨Nat.le_refl _, by simp [pgsize]⟩, rfl⟩
  · intro va h1 h2
    have hpage : va / pgsize = start / pgsize := by
      unfold pgsize at hstart h2 ⊢
      omega
    obtain ⟨hd1, hd0, ht⟩ := indices_of_page hpage
    rw [show slotOf r va = slotOf r start by rw [slotOf, hd1, hd0, ht]; rfl]
    exact hgone

/-- The loop of `unmap_range` empties what is left of its range. The
induction is on the fuel, of which every page left needs one. -/
theorem unmapLoop_spec (hr : r ∈ roots) (hlast : last ≤ usertop)
    (hlastp : last % pgsize = 0) :
    ∀ {fuel : Nat} {s : Machine M} {start : Nat}, RefInv roots lost noHold s →
      start % pgsize = 0 → start < last → last - start ≤ fuel * pgsize →
      ∃ s', unmapLoop r last fuel s start = some s'
        ∧ Unmapped roots lost r start last s s' := by
  intro fuel
  induction fuel with
  | zero =>
      intro s start _ _ hlt hfuel
      omega
  | succ fuel ih =>
      intro s start h hstart hlt hfuel
      have hla : pdx1 start < 511 := pdx1_user (by omega)
      unfold unmapLoop
      rw [getPte_look h.forest hr hla]
      cases hf : tableAt roots s r [pdx0 start, pdx1 start] with
      | none =>
          obtain ⟨hnext, hnextp⟩ := rounddown_next hstart
          dsimp only [Option.map_none]
          generalize hn : rounddown (start + ptsize) ptsize = next at *
          have hskip : ∀ {hi}, hi ≤ next → Unmapped roots lost r start hi s s :=
            fun hhi => Unmapped.skip h hf (by omega)
          have hpg : 0 < pgsize := by decide
          by_cases hmore : next < last
          · rw [if_pos ⟨by omega, hmore⟩]
            have hfuel' : last - next ≤ fuel * pgsize := by
              unfold pgsize at *
              omega
            obtain ⟨s', hrun, hun⟩ := ih h hnextp hmore hfuel'
            exact ⟨s', hrun, (hskip le_rfl).trans
              (by omega) (by omega) hun⟩
          · rw [if_neg fun hc => hmore hc.2]
            exact ⟨s, rfl, hskip (by omega)⟩
      | some f =>
          obtain ⟨s', hremove, hinv, he, hgone, hfrees, -⟩ :=
            pageRemovePte_spec h hf (slotOf_mem hr hla)
          have hpage := Unmapped.page hstart hinv he hgone hfrees
          have hskip : (if s.word (f, ptx start) ≠ 0 then
              pageRemovePte s (f, ptx start) else some s) = some s' := by
            split
            case isTrue => exact hremove
            case isFalse hzero =>
                rw [← hremove, pageRemovePte, if_neg]
                rw [not_not.mp hzero]
                exact hasFlag_zero pteV
          dsimp only [Option.map_some]
          rw [hskip]
          dsimp only
          by_cases hmore : start + pgsize < last
          · rw [if_pos ⟨by unfold pgsize; omega, hmore⟩]
            have hstart' : (start + pgsize) % pgsize = 0 := by
              unfold pgsize at hstart ⊢
              omega
            have hfuel' : last - (start + pgsize) ≤ fuel * pgsize := by
              unfold pgsize at *
              omega
            obtain ⟨s'', hrun, hun⟩ := ih hinv hstart' hmore hfuel'
            exact ⟨s'', hrun, hpage.trans (by omega) (by omega) hun⟩
          · rw [if_neg fun hc => hmore hc.2]
            have heq : start + pgsize = last := by
              unfold pgsize at *
              omega
            rw [heq] at hpage
            exact ⟨s', rfl, hpage⟩

/-- `unmap_range` empties every slot of its range. -/
theorem unmapRange_spec (h : RefInv roots lost noHold s) (hr : r ∈ roots)
    (hstart : start % pgsize = 0) (hlast : last % pgsize = 0)
    (huser : userAccess start last) :
    ∃ s', unmapRange s r start last = some s'
      ∧ Unmapped roots lost r start last s s' := by
  unfold unmapRange
  rw [if_pos ⟨hstart, hlast, huser⟩]
  refine unmapLoop_spec hr huser.2.2 hlast h hstart huser.2.1 ?_
  unfold pgsize at *
  omega

end Unmap

end Ucore.Mm
