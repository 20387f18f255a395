/-
What a store of a user program does: the page of the address belongs to the
process alone afterwards, with the old contents and the byte (`Owned`), and
no other page table entry shows anything new. It faults first if the entry
lacks `PTE_W`; `do_pgfault` then makes a page that has no other reference
writable, and copies any other.
-/
import Ucore.Cow.Proc
import Ucore.Cow.Proofs.CopyRange

namespace Ucore.Cow

open Mm

variable {M : PmmManager} {roots roots' : Finset Nat} {lost : Set Nat}
  {s s' : Machine M}

-- ============================================== what a process reads

section Load

variable {r va off : Nat} {x : Slot}

/-- The processor finds the entry of the slot. -/
theorem walk_eq (hr : r ∈ roots) (hva : pdx1 va < 511) :
    walk s r va = pteAt roots s (slotOf r va) := by
  have hroot := tableAt_root (s := s) hr
  have hdir := tableAt_cons hroot (by decide) (i := pdx1 va) hva
  unfold walk
  simp only [pteAt, slotOf]
  cases hd : frameOf (s.mem r (pdx1 va)) with
  | none =>
      rw [hd] at hdir
      rw [tableAt_cons_none hdir]
  | some pd0 =>
      rw [hd] at hdir
      rw [tableAt_cons hdir (by simp) (i := pdx0 va) (pdx0_lt va)]
      dsimp only
      cases frameOf (s.mem pd0 (pdx0 va)) with
      | none => rfl
      | some pt => rfl

/-- A load at a page offset through a slot. -/
def loadAt (roots : Finset Nat) (s : Machine M) (x : Slot) (off : Nat) :
    Option Nat :=
  if hasFlag (pteAt roots s x) pteU ∧ hasFlag (pteAt roots s x) pteR then
    (leafAt roots s x).map fun f => frameByte s f off
  else none

theorem userLoad_eq (hr : r ∈ roots) (hva : va < usertop) :
    userLoad s r va = loadAt roots s (slotOf r va) (pgoff va) := by
  unfold userLoad loadAt
  rw [walk_eq hr (pdx1_user hva)]
  rfl

/-- A slot that shows the same loads the same. -/
theorem loadAt_congr (h : SameView roots s roots' s' x) :
    loadAt roots' s' x off = loadAt roots s x off := by
  obtain ⟨hpte, hmem⟩ := h
  have hleaf : leafAt roots' s' x = leafAt roots s x := by
    rw [leafAt, hpte, leafAt]
  unfold loadAt
  rw [hpte, hleaf]
  cases hf : leafAt roots s x with
  | none => rfl
  | some f =>
      rw [Option.map_some, Option.map_some, frameByte, frameByte,
        hmem f (hleaf.trans hf)]

/-- Nothing mapped, nothing read. -/
theorem loadAt_none (h : leafAt roots s x = none) :
    loadAt roots s x off = none := by
  rw [loadAt, h, Option.map_none, ite_self]

end Load

-- ================================================= pages of one slot

section Owned

/-- From `s` to `s'` slot `x` came to map, for reading and writing, a page
that no other slot maps and that holds `frame`; nothing else changed. -/
structure Owned (roots : Finset Nat) (lost : Set Nat) (x : Slot)
    (s s' : Machine M) (frame : Nat → Nat) : Prop where
  inv : RefInv roots lost noHold s'
  others : ∀ {y}, y ∈ slots roots → y ≠ x → SameView roots s roots s' y
  user : hasFlag (pteAt roots s' x) pteU
  read : hasFlag (pteAt roots s' x) pteR
  write : hasFlag (pteAt roots s' x) pteW
  page : ∃ f, leafAt roots s' x = some f ∧ s'.mem f = frame
    ∧ ∀ y ∈ slots roots, leafAt roots s' y = some f → y = x

end Owned

-- =================================================== the write fault

section Fault

variable {r la f pt perm : Nat} {mm : MmStruct} {x : Slot}

/-- A page with one reference is made writable where it is. -/
theorem Owned.upgrade (h : RefInv roots lost noHold s)
    (hx : slotOf r la ∈ slots roots)
    (hpt : tableAt roots s r [pdx0 la, pdx1 la] = some pt)
    (hleaf : leafAt roots s (slotOf r la) = some f) (hone : pageRef s f = 1)
    (hu : hasFlag (pteAt roots s (slotOf r la)) pteU)
    (hr : hasFlag (pteAt roots s (slotOf r la)) pteR) :
    Owned roots lost (slotOf r la) s
      (s.setWord (pt, ptx la) (pteAt roots s (slotOf r la) ||| pteW))
      (s.mem f) := by
  let w := pteAt roots s (slotOf r la) ||| pteW
  have hf := h.mapped hx hleaf
  have hv : hasFlag (pteAt roots s (slotOf r la)) pteV := by
    by_contra hno
    rw [leafAt, frameOf_eq_none_iff.mpr hno] at hleaf
    cases hleaf
  have hw : frameOf w = some f := by
    show frameOf (_ ||| pteW) = some f
    rw [frameOf_or (by decide) hv]
    exact hleaf
  have hinv : RefInv roots lost noHold (s.setWord (pt, ptx la) w) := by
    refine h.store hpt hx ?_ ?_
    · intro p hp
      rw [hw] at hp
      cases hp
      exact hf
    · intro p
      have hleaf' : leafAt roots s (r, pdx1 la, pdx0 la, ptx la) = some f :=
        hleaf
      rw [hw, hleaf']
  have hedits : Edits roots lost (· = slotOf r la) s
      (s.setWord (pt, ptx la) w) := Edits.setWord h.forest hpt
  have hpte : pteAt roots (s.setWord (pt, ptx la) w) (slotOf r la) = w := by
    rw [pteAt_setWord h.forest hpt]
    exact if_pos rfl
  have hleaf' : leafAt roots (s.setWord (pt, ptx la) w) (slotOf r la)
      = some f := by
    rw [leafAt, hpte, hw]
  have hcount : mapCount roots s f = 1 := by
    have href := h.ref_eq hf.2.2
    rw [show s.ref f = 1 from hone, noHold] at href
    omega
  have halone := (Occurs.eq_one_iff hx hleaf).mp hcount
  have hkeep : ∀ {flag}, hasFlag (pteAt roots s (slotOf r la)) flag →
      hasFlag w flag := by
    intro flag hflag
    unfold hasFlag at *
    rw [Nat.and_or_distrib_right]
    exact fun hzero => hflag (Nat.or_eq_zero_iff.mp hzero).1
  refine ⟨hinv, fun hy hne => hedits.sameView hinv hy hne, ?_, ?_, ?_,
    f, hleaf', ?_, ?_⟩
  · exact hpte.symm ▸ hkeep hu
  · exact hpte.symm ▸ hkeep hr
  · rw [hpte, hasFlag_pteW, Nat.testBit_or,
      show pteW.testBit 2 = true from rfl, Bool.or_true]
  · exact hedits.mem_eq (hinv.mapped hx hleaf').2.2
  · intro y hy hfy
    by_contra hne
    rw [leafAt, hedits.pte_eq hne] at hfy
    exact hne (halone y hy hfy)

/-- A page with further references is copied: a new page is mapped in its
place, filled, and mapped again with `PTE_W`. -/
theorem Owned.copy {page : Nat} {s₁ : Machine M}
    (h : RefInv roots lost noHold s) (hr : r ∈ roots) (hla : pdx1 la < 511)
    (hpt : tableAt roots s r [pdx0 la, pdx1 la] ≠ none)
    (hleaf : leafAt roots s (slotOf r la) = some f)
    (hmany : pageRef s f ≠ 1) (halloc : allocPage s = some (page, s₁)) :
    ∃ s₂ s', pageInsert s₁ r page la (pteU ||| readWrite) = some (true, s₂)
      ∧ pageInsert (copyPage s₂ page f) r page la
        ((pteU ||| readWrite) ||| pteW) = some (true, s')
      ∧ Owned roots lost (slotOf r la) s s' (s.mem f) := by
  have hx := slotOf_mem hr hla
  have hf := h.mapped hx hleaf
  obtain ⟨hin, -, hmem₁, -, -⟩ := allocPage_spec halloc
  obtain ⟨h₁, hpage₁, -, -⟩ := h.allocPage halloc
  have he₁ : Edits roots lost (· = slotOf r la) s s₁ :=
    (Edits.refl _ s).of_mem hmem₁
  have hpt₁ : tableAt roots s₁ r [pdx0 la, pdx1 la] ≠ none := by
    rwa [tableAt_of_mem hmem₁]
  obtain ⟨b₂, s₂, hrun₂, h₂, he₂, -, hpte₂, -, hkept₂⟩ :=
    pageInsert_spec h₁ hr hla hpage₁ (show pteU ||| readWrite < 2 ^ 10 by decide)
  obtain ⟨rfl, -⟩ := hkept₂ hpt₁
  have he₁₂ := he₁.trans he₂
  have hpt₂ : tableAt roots s₂ r [pdx0 la, pdx1 la] ≠ none := by
    obtain ⟨g, hg⟩ := Option.ne_none_iff_exists'.mp hpt
    rw [he₁₂.mono hg]
    exact fun h => by cases h
  have hpage₂ : UserPage roots lost s₂ page := by
    refine h₂.mapped hx ?_
    rw [leafAt, hpte₂ rfl]
    exact frameOf_pteCreate hpage₁.1.lt (by decide)
  -- the old page is mapped elsewhere, so it keeps its contents
  have hold₂ : s₂.mem f = s.mem f := by
    have hcount : mapCount roots s f ≠ 1 := by
      intro hone
      have href := h.ref_eq hf.2.2
      rw [hone] at href
      exact hmany href
    obtain ⟨y, hy, hfy, hne⟩ : ∃ y ∈ slots roots,
        leafAt roots s y = some f ∧ y ≠ slotOf r la := by
      by_contra hno
      refine hcount ((Occurs.eq_one_iff hx hleaf).mpr fun y hy hfy => ?_)
      by_contra hne
      exact hno ⟨y, hy, hfy, hne⟩
    refine he₁₂.mem_eq (h₂.mapped hy ?_).2.2
    rw [leafAt, he₁₂.pte_eq hne]
    exact hfy
  obtain ⟨h₃, hpte₃⟩ : RefInv roots lost noHold (copyPage s₂ page f)
      ∧ ∀ x, pteAt roots (copyPage s₂ page f) x = pteAt roots s₂ x :=
    overwrite h₂ hpage₂
      (fun p hp => Function.update_of_ne hp _ _) rfl rfl
  have hpage₃ : UserPage roots lost (copyPage s₂ page f) page := by
    refine h₃.mapped hx ?_
    rw [leafAt, hpte₃, hpte₂ rfl]
    exact frameOf_pteCreate hpage₁.1.lt (by decide)
  have hpt₃ : tableAt roots (copyPage s₂ page f) r [pdx0 la, pdx1 la]
      ≠ none := by
    rw [tableAt_congr (s := s₂)]
    · exact hpt₂
    · intro r' path g hg _
      refine Function.update_of_ne ?_ _ _
      rintro rfl
      exact hpage₂.2.2 (Or.inr ⟨r', path, hg⟩)
  obtain ⟨b₄, s₄, hrun₄, h₄, he₄, -, hpte₄, -, hkept₄⟩ :=
    pageInsert_spec h₃ hr hla hpage₃
      (show (pteU ||| readWrite) ||| pteW < 2 ^ 10 by decide)
  obtain ⟨rfl, -⟩ := hkept₄ hpt₃
  have hpte : pteAt roots s₄ (slotOf r la)
      = pteCreate page (pteV ||| ((pteU ||| readWrite) ||| pteW)) := hpte₄ rfl
  have hleaf₄ : leafAt roots s₄ (slotOf r la) = some page := by
    rw [leafAt, hpte]
    exact frameOf_pteCreate hpage₁.1.lt (by decide)
  have hsame : ∀ {y}, y ≠ slotOf r la →
      pteAt roots s₄ y = pteAt roots s y := by
    intro y hne
    rw [he₄.pte_eq hne, hpte₃, he₁₂.pte_eq hne]
  -- the new page was free, so no other slot maps it
  have halone : ∀ y ∈ slots roots, leafAt roots s₄ y = some page →
      y = slotOf r la := by
    intro y hy hfy
    by_contra hne
    rw [leafAt, hsame hne] at hfy
    exact (h.mapped hy hfy).2.1 hin
  refine ⟨s₂, s₄, hrun₂, hrun₄, h₄, ?_, ?_, ?_, ?_, page, hleaf₄, ?_, halone⟩
  · intro y hy hne
    refine ⟨hsame hne, fun p hp => ?_⟩
    have hp₁₂ : leafAt roots s₂ y = some p := by
      rw [leafAt, he₁₂.pte_eq hne, ← hsame hne]
      exact hp
    have hpne : p ≠ page := by
      rintro rfl
      exact hne (halone y hy hp)
    rw [he₄.mem_eq (h₄.mapped hy hp).2.2,
      ← he₁₂.mem_eq (h₂.mapped hy hp₁₂).2.2]
    exact Function.update_of_ne hpne _ _
  · rw [hpte, hasFlag_pteU, testBit_pteCreate (by decide) (by decide)]
    decide
  · rw [hpte, hasFlag_pteR, testBit_pteCreate (by decide) (by decide)]
    decide
  · rw [hpte, hasFlag_pteW, testBit_pteCreate (by decide) (by decide)]
    decide
  · rw [he₄.mem_eq (h₄.mapped hx hleaf₄).2.2, ← hold₂]
    exact Function.update_self page _ _

/-- The write fault gives the process a page of its own. It fails only when
no page is free. -/
theorem copyOnWrite_spec (h : RefInv roots lost noHold s)
    (hr : mm.pgdir ∈ roots) (hla : pdx1 la < 511)
    (hpt : tableAt roots s mm.pgdir [pdx0 la, pdx1 la] = some pt)
    (hleaf : leafAt roots s (slotOf mm.pgdir la) = some f)
    (hu : hasFlag (pteAt roots s (slotOf mm.pgdir la)) pteU)
    (hread : hasFlag (pteAt roots s (slotOf mm.pgdir la)) pteR) :
    (∃ s', copyOnWrite s mm (pt, ptx la) la (pteU ||| readWrite)
          = some (.ok, s')
        ∧ Owned roots lost (slotOf mm.pgdir la) s s' (s.mem f))
      ∨ copyOnWrite s mm (pt, ptx la) la (pteU ||| readWrite)
          = some (.noMem, s) ∧ s.free = ∅ := by
  have hx := slotOf_mem hr hla
  have hf := h.mapped hx hleaf
  have hword : s.word (pt, ptx la) = pteAt roots s (slotOf mm.pgdir la) := by
    simp only [pteAt, slotOf, hpt]
    rfl
  unfold copyOnWrite
  rw [hword, hf.1.pte2page_eq hleaf]
  dsimp only
  by_cases hone : pageRef s f = 1
  · rw [if_pos hone]
    exact Or.inl ⟨_, rfl, Owned.upgrade h hx hpt hleaf hone hu hread⟩
  · rw [if_neg hone]
    unfold pgdirAllocPage
    cases halloc : allocPage s with
    | none => exact Or.inr ⟨rfl, allocPage_none halloc⟩
    | some a =>
        obtain ⟨page, s₁⟩ := a
        have hpt' : tableAt roots s mm.pgdir [pdx0 la, pdx1 la] ≠ none := by
          rw [hpt]
          exact fun h => by cases h
        obtain ⟨s₂, s', hrun₂, hrun', howned⟩ :=
          Owned.copy h hr hla hpt' hleaf hone halloc
        dsimp only
        rw [hrun₂]
        dsimp only
        rw [hrun']
        exact Or.inl ⟨s', rfl, howned⟩

-- ======================================================== do_pgfault

/-- A write fault at a writable area's mapped page. -/
theorem doPgfault_spec {vma : Vma} {va : Nat} (h : RefInv roots lost noHold s)
    (hr : mm.pgdir ∈ roots) (hla : va < usertop)
    (hsorted : Sorted mm.mmapList)
    (hcache : ∀ v ∈ mm.mmapCache, v ∈ mm.mmapList)
    (hin : vma ∈ mm.mmapList) (hva : vma.Has va)
    (hvma : hasFlag vma.vmFlags vmWrite)
    (hleaf : leafAt roots s (slotOf mm.pgdir va) = some f)
    (hu : hasFlag (pteAt roots s (slotOf mm.pgdir va)) pteU)
    (hread : hasFlag (pteAt roots s (slotOf mm.pgdir va)) pteR)
    (hnow : ¬ hasFlag (pteAt roots s (slotOf mm.pgdir va)) pteW) :
    (∃ s', doPgfault s mm causeStorePageFault va
          = some (.ok, { mm with mmapCache := some vma }, s')
        ∧ Owned roots lost (slotOf mm.pgdir va) s s' (s.mem f))
      ∨ doPgfault s mm causeStorePageFault va
          = some (.noMem, { mm with mmapCache := some vma }, s)
        ∧ s.free = ∅ := by
  let la := rounddown va pgsize
  have hslot : slotOf mm.pgdir va = slotOf mm.pgdir la :=
    slotOf_eq (rounddown_page va).symm
  have hlt : la < usertop := Nat.lt_of_le_of_lt (Nat.sub_le _ _) hla
  have hd1 : pdx1 la < 511 := pdx1_user hlt
  rw [hslot] at hleaf hu hread hnow ⊢
  obtain ⟨pt, hpt⟩ : ∃ pt,
      tableAt roots s mm.pgdir [pdx0 la, pdx1 la] = some pt := by
    cases hpt : tableAt roots s mm.pgdir [pdx0 la, pdx1 la] with
    | some pt => exact ⟨pt, rfl⟩
    | none =>
        simp only [leafAt, pteAt, slotOf, hpt, frameOf_zero] at hleaf
        cases hleaf
  have hword : s.word (pt, ptx la) = pteAt roots s (slotOf mm.pgdir la) := by
    simp only [pteAt, slotOf, hpt]
    rfl
  have hv : hasFlag (s.word (pt, ptx la)) pteV := by
    rw [hword]
    by_contra hno
    rw [leafAt, frameOf_eq_none_iff.mpr hno] at hleaf
    cases hleaf
  obtain ⟨o, s₁, hget, -, hptep, hnull, hsame, -⟩ :=
    getPte_create h.forest hr hd1
  obtain rfl : s₁ = s := hsame (by rw [hpt]; exact (fun h => by cases h))
  obtain rfl : o = some (pt, ptx la) := by
    cases o with
    | none =>
        rw [(hnull rfl).2] at hpt
        cases hpt
    | some ptep =>
        obtain ⟨g, rfl, hg⟩ := hptep ptep rfl
        rw [hpt] at hg
        cases hg
        rfl
  have hperm : faultPerm vma = pteU ||| readWrite := if_pos hvma
  have hfault : hasFlag causeStorePageFault 2 := by decide
  unfold doPgfault
  rw [findVma_spec hsorted hcache hin hva]
  dsimp only
  rw [if_neg (Nat.not_lt.mpr hva.1), hget]
  dsimp only
  unfold resolveFault
  rw [if_pos hv, hword, if_pos ⟨hfault, hnow⟩, hperm]
  let mm' : MmStruct := { mm with mmapCache := some vma }
  have hr' : mm'.pgdir ∈ roots := hr
  rcases copyOnWrite_spec h hr' hd1 hpt hleaf hu hread with
    ⟨s', hrun, howned⟩ | ⟨hrun, hempty⟩
  · rw [hrun]
    exact Or.inl ⟨s', rfl, howned⟩
  · rw [hrun]
    exact Or.inr ⟨rfl, hempty⟩

end Fault

-- ============================================================ stores

section Store

variable {r va b : Nat} {mm : MmStruct} {frame : Nat → Nat}

/-- A frame after a byte was written at an address. -/
def writeByte (frame : Nat → Nat) (va b : Nat) : Nat → Nat :=
  Function.update frame (pgoff va / 8)
    (setByte (frame (pgoff va / 8)) (pgoff va % 8) b)

/-- A store into a page the process owns does not fault. -/
theorem Owned.userStore {s₀ : Machine M} (hr : r ∈ roots) (hva : va < usertop)
    (h : Owned roots lost (slotOf r va) s₀ s frame) :
    ∃ s', userStore s r va b = some s'
      ∧ Owned roots lost (slotOf r va) s₀ s' (writeByte frame va b) := by
  have hx := slotOf_mem hr (pdx1_user hva)
  obtain ⟨f, hleaf, hmem, halone⟩ := h.page
  let s' := s.setWord (f, pgoff va / 8)
    (setByte (s.mem f (pgoff va / 8)) (pgoff va % 8) b)
  have hother : ∀ p, p ≠ f → s'.mem p = s.mem p :=
    fun p hp => Function.update_of_ne hp _ _
  obtain ⟨hinv, hpte⟩ : RefInv roots lost noHold s'
      ∧ ∀ x, pteAt roots s' x = pteAt roots s x :=
    overwrite h.inv (h.inv.mapped hx hleaf) hother rfl rfl
  have hleaf' : ∀ y, leafAt roots s' y = leafAt roots s y := by
    intro y
    rw [leafAt, hpte, leafAt]
  refine ⟨s', ?_, hinv, ?_, ?_, ?_, ?_, f, ?_, ?_, ?_⟩
  · unfold Cow.userStore
    rw [walk_eq hr (pdx1_user hva), if_pos ⟨h.user, h.write⟩,
      show frameOf (pteAt roots s (slotOf r va)) = some f from hleaf]
    rfl
  · intro y hy hne
    refine (h.others hy hne).trans ⟨hpte y, fun p hp => hother p ?_⟩
    rintro rfl
    exact hne (halone y hy (by rwa [hleaf'] at hp))
  · rw [hpte]
    exact h.user
  · rw [hpte]
    exact h.read
  · rw [hpte]
    exact h.write
  · rw [hleaf']
    exact hleaf
  · rw [← hmem]
    exact Function.update_self f _ _
  · intro y hy hfy
    rw [hleaf'] at hfy
    exact halone y hy hfy

/-- What is read back after the byte was written. -/
theorem Owned.loadAt {x : Slot} {f off : Nat} (hb : b < 256)
    (h : Owned roots lost x s s' (writeByte (s.mem f) va b))
    (hleaf : leafAt roots s x = some f)
    (hu : hasFlag (pteAt roots s x) pteU)
    (hread : hasFlag (pteAt roots s x) pteR) :
    loadAt roots s' x off
      = if off = pgoff va then some b else loadAt roots s x off := by
  obtain ⟨f', hleaf', hmem, -⟩ := h.page
  have hold : Cow.loadAt roots s x off = some (frameByte s f off) := by
    rw [Cow.loadAt, if_pos ⟨hu, hread⟩, hleaf, Option.map_some]
  rw [hold, Cow.loadAt, if_pos ⟨h.user, h.read⟩, hleaf', Option.map_some,
    frameByte, frameByte, hmem]
  unfold writeByte
  by_cases hword : off / 8 = pgoff va / 8
  · rw [hword, Function.update_self]
    by_cases hoff : off = pgoff va
    · rw [if_pos hoff, hoff, getByte_setByte_self hb]
    · rw [if_neg hoff, getByte_setByte_of_ne hb]
      omega
  · have hoff : off ≠ pgoff va := fun heq => hword (heq ▸ rfl)
    rw [if_neg hoff, Function.update_of_ne hword]

/-- A store into a mapped page of a writable area. Where the entry has
`PTE_W` already, no other slot maps the page. It fails only when no page is
free. -/
theorem store_spec {vma : Vma} {f : Nat} (h : RefInv roots lost noHold s)
    (hr : mm.pgdir ∈ roots) (hla : va < usertop)
    (hsorted : Sorted mm.mmapList)
    (hcache : ∀ v ∈ mm.mmapCache, v ∈ mm.mmapList)
    (hin : vma ∈ mm.mmapList) (hva : vma.Has va)
    (hvma : hasFlag vma.vmFlags vmWrite)
    (hleaf : leafAt roots s (slotOf mm.pgdir va) = some f)
    (hu : hasFlag (pteAt roots s (slotOf mm.pgdir va)) pteU)
    (hread : hasFlag (pteAt roots s (slotOf mm.pgdir va)) pteR)
    (halone : hasFlag (pteAt roots s (slotOf mm.pgdir va)) pteW →
      ∀ y ∈ slots roots, leafAt roots s y = some f →
        y = slotOf mm.pgdir va) :
    (∃ mm' s', store s mm va b = some (mm', s')
        ∧ (mm' = mm ∨ mm' = { mm with mmapCache := some vma })
        ∧ Owned roots lost (slotOf mm.pgdir va) s s'
          (writeByte (s.mem f) va b))
      ∨ store s mm va b = none ∧ s.free = ∅ := by
  unfold store
  by_cases hw : hasFlag (pteAt roots s (slotOf mm.pgdir va)) pteW
  · have howned : Owned roots lost (slotOf mm.pgdir va) s s (s.mem f) :=
      ⟨h, fun _ _ => ⟨rfl, fun _ _ => rfl⟩, hu, hread, hw, f, hleaf, rfl,
        halone hw⟩
    obtain ⟨s', hrun, howned'⟩ := howned.userStore (b := b) hr hla
    rw [hrun]
    exact Or.inl ⟨mm, s', rfl, Or.inl rfl, howned'⟩
  · have hfault : userStore s mm.pgdir va b = none := by
      unfold userStore
      rw [walk_eq hr (pdx1_user hla)]
      exact if_neg fun hboth => hw hboth.2
    rw [hfault]
    dsimp only
    rcases doPgfault_spec h hr hla hsorted hcache hin hva hvma hleaf hu hread
      hw with ⟨s₁, hrun, howned⟩ | ⟨hrun, hempty⟩
    · obtain ⟨s', hrun', howned'⟩ := howned.userStore (b := b) hr hla
      rw [hrun]
      dsimp only
      rw [hrun']
      exact Or.inl ⟨_, s', rfl, Or.inr rfl, howned'⟩
    · rw [hrun]
      exact Or.inr ⟨rfl, hempty⟩

end Store

end Ucore.Cow
