/-
Making and tearing down address spaces.

A new page directory becomes a root without tables (`RefInv.addRoot`). On
the way out tables are cut off one by one (`RefInv.prune`), in the order
`exit_range` happens to take, and then the root (`RefInv.removeRoot`). A
directory may be cut off while it still leads to page tables; these become
`lost`. Nothing is mapped below a root that is torn down, so no count
changes, and nothing that other roots show changes (`TornDown`).
-/
import Ucore.Mm.Proofs.PageRef
import Ucore.Mm.Proofs.Vmm

namespace Ucore.Mm

variable {M : PmmManager} {roots : Finset Nat} {lost lost' : Set Nat}
  {s s' : Machine M}

-- ========================================================= new roots

section AddRoot

variable {page : Nat} {s₁ : Machine M} {frame : Nat → Nat}

/-- A frame without tables below it is a root with one path. -/
theorem tableAt_addRoot (h : Forest roots lost s) (hfree : page ∈ s.free)
    (hmem : s'.mem = Function.update s.mem page frame)
    (hframe : ∀ i < 511, frameOf (frame i) = none) (r : Nat)
    (path : List Nat) : tableAt (insert page roots) s' r path
      = if r = page then (if path = [] then some page else none)
        else tableAt roots s r path := by
  induction path with
  | nil =>
      simp only [tableAt, Finset.mem_insert]
      by_cases hr : r = page
      · simp [hr]
      · simp [hr]
  | cons i path ih =>
      simp only [tableAt, ih]
      by_cases hr : r = page
      · subst hr
        simp only [if_true, List.cons_ne_nil, if_false]
        by_cases hpath : path = []
        · subst hpath
          simp only [if_true, Option.bind_some, hmem, Function.update_self]
          split
          case isTrue hi => exact hframe i hi.2
          case isFalse => rfl
        · simp [hpath]
      · simp only [if_neg hr]
        cases hf : tableAt roots s r path with
        | none => rfl
        | some f =>
            have hne : f ≠ page := by
              rintro rfl
              exact h.notFree hf hfree
            simp only [Option.bind_some, hmem]
            rw [Function.update_of_ne hne]

/-- A page directory that is allocated and filled without user entries
joins the roots. -/
theorem RefInv.addRoot (h : RefInv roots lost noHold s)
    (halloc : Mm.allocPage s = some (page, s₁))
    (hmem : s'.mem = Function.update s₁.mem page frame)
    (href : s'.ref = s₁.ref) (hpmm : s'.pmm = s₁.pmm)
    (hframe : ∀ i < 511, frameOf (frame i) = none) :
    RefInv (insert page roots) lost noHold s' ∧ page ∉ roots
      ∧ (∀ x, x.1 ≠ page → pteAt (insert page roots) s' x = pteAt roots s x)
      ∧ (∀ x, x.1 = page → pteAt (insert page roots) s' x = 0) := by
  obtain ⟨hin, hfree₁, hmem₁, href₁, -⟩ := allocPage_spec halloc
  rw [hmem₁] at hmem
  rw [href₁] at href
  have hfree : s'.free = s.free.erase page := by
    rw [← hfree₁, Machine.free, Machine.free, hpmm]
  have htable := tableAt_addRoot h.forest hin hmem hframe
  have hnew : page ∉ roots := fun hr =>
    h.forest.notFree (tableAt_root hr) hin
  have hnone : ∀ r, r = page → ∀ path, tableAt roots s r path = none := by
    rintro r rfl path
    induction path with
    | nil => exact if_neg hnew
    | cons i path ih => exact tableAt_cons_none ih
  have hist : ∀ p, IsTable (insert page roots) lost s' p ↔
      p = page ∨ IsTable roots lost s p := by
    intro p
    constructor
    · rintro (hlost | ⟨r, path, hf⟩)
      · exact Or.inr (Or.inl hlost)
      · rw [htable] at hf
        split at hf
        case isTrue =>
            split at hf
            · cases hf
              exact Or.inl rfl
            · cases hf
        case isFalse => exact Or.inr (Or.inr ⟨r, path, hf⟩)
    · rintro (rfl | hlost | ⟨r, path, hf⟩)
      · exact Or.inr ⟨p, [], by rw [htable, if_pos rfl, if_pos rfl]⟩
      · exact Or.inl hlost
      · refine Or.inr ⟨r, path, ?_⟩
        rw [htable, if_neg]
        · exact hf
        · intro hr
          rw [hnone r hr] at hf
          cases hf
  have hpte : ∀ x : Slot, x.1 ≠ page →
      pteAt (insert page roots) s' x = pteAt roots s x := by
    intro x hx
    unfold pteAt
    rw [htable, if_neg hx]
    cases hf : tableAt roots s x.1 [x.2.2.1, x.2.1] with
    | none => rfl
    | some f =>
        have hne : f ≠ page := by
          rintro rfl
          exact h.forest.notFree hf hin
        simp only [hmem]
        rw [Function.update_of_ne hne]
  have hzero : ∀ x : Slot, x.1 = page →
      pteAt (insert page roots) s' x = 0 := by
    intro x hx
    unfold pteAt
    rw [htable, if_pos hx, if_neg (by simp)]
  have huser : ∀ {p}, UserPage roots lost s p →
      UserPage (insert page roots) lost s' p := by
    rintro p ⟨hm, hout, hnot⟩
    refine ⟨hm, ?_, ?_⟩
    · rw [hfree]
      exact fun hp => hout (Finset.mem_of_mem_erase hp)
    · rw [hist]
      rintro (rfl | ht)
      · exact hout hin
      · exact hnot ht
  have hcount : ∀ p, mapCount (insert page roots) s' p
      = mapCount roots s p := by
    intro p
    apply Occurs.subset
    · intro x hx
      obtain ⟨r, d1, d0, t⟩ := x
      rw [mem_slots] at hx ⊢
      exact ⟨Finset.mem_insert_of_mem hx.1, hx.2⟩
    · rintro ⟨r, d1, d0, t⟩ hx
      rw [mem_slots] at hx
      rw [leafAt, hpte, leafAt]
      rintro rfl
      exact hnew hx.1
    · rintro ⟨r, d1, d0, t⟩ hx hout
      rw [mem_slots] at hx hout
      rw [leafAt, hzero, frameOf_zero]
      · exact fun h => by cases h
      · rcases Finset.mem_insert.mp hx.1 with hr | hr
        · exact hr
        · exact absurd ⟨hr, hx.2⟩ hout
  refine ⟨⟨⟨?_, ?_, ?_, ?_, ?_, ?_⟩, ?_, ?_,
    fun hp => absurd hp (Nat.lt_irrefl 0)⟩, hnew, hpte, hzero⟩
  · intro r path r' path' f hf hf'
    rw [htable] at hf hf'
    split at hf
    case isTrue hr =>
        split at hf
        case isFalse => cases hf
        case isTrue hpath =>
            cases hf
            split at hf'
            case isTrue hr' =>
                split at hf'
                case isFalse => cases hf'
                case isTrue hpath' =>
                    exact ⟨hr.trans hr'.symm, hpath.trans hpath'.symm⟩
            case isFalse => exact absurd hin (h.forest.notFree hf')
    case isFalse hr =>
        split at hf'
        case isTrue hr' =>
            split at hf'
            case isFalse => cases hf'
            case isTrue =>
                cases hf'
                exact absurd hin (h.forest.notFree hf)
        case isFalse => exact h.forest.inj hf hf'
  · intro r path f hf
    rw [htable] at hf
    split at hf
    case isTrue =>
        split at hf
        · cases hf
          exact h.forest.freeManaged hin
        · cases hf
    case isFalse => exact h.forest.managed hf
  · intro r path f hf
    rw [htable] at hf
    rw [hfree]
    split at hf
    case isTrue =>
        split at hf
        · cases hf
          exact Finset.notMem_erase _ _
        · cases hf
    case isFalse =>
        exact fun hp => h.forest.notFree hf (Finset.mem_of_mem_erase hp)
  · intro f hf
    rw [hfree] at hf
    exact h.forest.freeManaged (Finset.mem_of_mem_erase hf)
  · intro f hlost
    rw [hfree]
    exact fun hp => h.forest.lostNotFree hlost (Finset.mem_of_mem_erase hp)
  · intro r path f hlost hf
    rw [htable] at hf
    split at hf
    case isTrue =>
        split at hf
        · cases hf
          exact h.forest.lostNotFree hlost hin
        · cases hf
    case isFalse => exact h.forest.lostNotTable hlost hf
  · intro p hp
    rw [href, hcount]
    exact h.ref_eq fun ht => hp ((hist p).mpr (Or.inr ht))
  · rintro ⟨r, d1, d0, t⟩ p hx hleaf
    by_cases hr : r = page
    · rw [leafAt, hzero _ hr, frameOf_zero] at hleaf
      cases hleaf
    · rw [leafAt, hpte _ hr] at hleaf
      rw [mem_slots] at hx
      have hr' : r ∈ roots := Finset.mem_of_mem_insert_of_ne hx.1 hr
      exact huser (h.mapped (mem_slots.mpr ⟨hr', hx.2⟩) hleaf)

end AddRoot

-- ========================================================== teardown

/-- From `s` to `s'` tables below `r`, which maps nothing, were given up;
user pages stay what they are, and the other roots show what they
showed. -/
structure TornDown (roots : Finset Nat) (r : Nat) (lost lost' : Set Nat)
    (s s' : Machine M) : Prop where
  inv : RefInv roots lost' noHold s'
  empty : ∀ x ∈ slots roots, x.1 = r → leafAt roots s' x = none
  user : ∀ {p}, UserPage roots lost s p →
    UserPage roots lost' s' p ∧ s'.mem p = s.mem p
  other : ∀ x, x.1 ≠ r → pteAt roots s' x = pteAt roots s x

section Prune

variable {r f c i : Nat} {q : List Nat}

theorem TornDown.refl (h : RefInv roots lost noHold s)
    (hempty : ∀ x ∈ slots roots, x.1 = r → leafAt roots s x = none) :
    TornDown roots r lost lost s s :=
  ⟨h, hempty, fun hp => ⟨hp, rfl⟩, fun _ _ => rfl⟩

theorem TornDown.trans {lost'' : Set Nat} {s'' : Machine M}
    (h : TornDown roots r lost lost' s s')
    (h' : TornDown roots r lost' lost'' s' s'') :
    TornDown roots r lost lost'' s s'' := by
  refine ⟨h'.inv, h'.empty, ?_, fun x hx => (h'.other x hx).trans
    (h.other x hx)⟩
  intro p hp
  obtain ⟨hp', hmem⟩ := h.user hp
  obtain ⟨hp'', hmem'⟩ := h'.user hp'
  exact ⟨hp'', hmem'.trans hmem⟩

/-- Clearing a directory entry cuts off the table behind it and what is
below. -/
theorem tableAt_prune (h : Forest roots lost s)
    (hf : tableAt roots s r q = some f) (r' : Nat) (path : List Nat) :
    tableAt roots (s.setWord (f, i) 0) r' path
      = if r' = r ∧ i :: q <:+ path then none
        else tableAt roots s r' path := by
  induction path with
  | nil => simp [tableAt]
  | cons j path ih =>
      by_cases hcut : r' = r ∧ i :: q <:+ path
      · rw [if_pos hcut] at ih
        have hcut' : r' = r ∧ i :: q <:+ j :: path :=
          ⟨hcut.1, List.suffix_cons_iff.mpr (Or.inr hcut.2)⟩
        rw [if_pos hcut', tableAt_cons_none ih]
      · rw [if_neg hcut] at ih
        have hiff : (r' = r ∧ i :: q <:+ j :: path)
            ↔ r' = r ∧ i = j ∧ q = path := by
          rw [List.suffix_cons_iff, List.cons.injEq]
          tauto
        simp only [hiff, tableAt, ih]
        cases hg : tableAt roots s r' path with
        | none => simp
        | some g =>
            simp only [Option.bind_some, setWord_mem]
            by_cases hgf : g = f
            · subst hgf
              obtain ⟨rfl, rfl⟩ := h.inj hf hg
              by_cases hj : j = i
              · simp [hj]
              · simp [hj, Ne.symm hj]
            · have hother : ¬ (r' = r ∧ i = j ∧ q = path) := by
                rintro ⟨rfl, -, rfl⟩
                rw [hf] at hg
                cases hg
                exact hgf rfl
              have hcell : ¬ (g = f ∧ j = i) := fun hc => hgf hc.1
              rw [if_neg hother, if_neg hcell]

/-- The tables below a path. -/
def below (roots : Finset Nat) (s : Machine M) (r : Nat) (q : List Nat) :
    Set Nat :=
  fun g => ∃ path, path ≠ [] ∧ tableAt roots s r (path ++ q) = some g

/-- Freeing a table and clearing its entry. The tables below it become
lost. -/
theorem RefInv.prune (h : RefInv roots lost noHold s)
    (hempty : ∀ x ∈ slots roots, x.1 = r → leafAt roots s x = none)
    (hf : tableAt roots s r q = some f)
    (hc : tableAt roots s r (i :: q) = some c) :
    TornDown roots r lost (lost ∪ below roots s r (i :: q)) s
      ((Mm.freePage s c).setWord (f, i) 0) := by
  let lost' := lost ∪ below roots s r (i :: q)
  let s₁ := (Mm.freePage s c).setWord (f, i) 0
  have hfree : s₁.free = insert c s.free :=
    freePage_free s c (h.forest.notFree hc)
  have hmem₁ : s₁.mem = (s.setWord (f, i) 0).mem := rfl
  have htable : ∀ r' path, tableAt roots s₁ r' path
      = if r' = r ∧ i :: q <:+ path then none
        else tableAt roots s r' path := by
    intro r' path
    rw [tableAt_of_mem hmem₁]
    exact tableAt_prune h.forest hf r' path
  have hkeep : ∀ {r' path g}, tableAt roots s₁ r' path = some g →
      tableAt roots s r' path = some g ∧ ¬ (r' = r ∧ i :: q <:+ path) := by
    intro r' path g hg
    rw [htable] at hg
    split at hg
    case isTrue => cases hg
    case isFalse hcut => exact ⟨hg, hcut⟩
  -- the same frames are tables as before, `c` excepted
  have hist : ∀ {p}, IsTable roots lost s p → p = c
      ∨ IsTable roots lost' s₁ p := by
    rintro p (hlost | ⟨r', path, hp⟩)
    · exact Or.inr (Or.inl (Or.inl hlost))
    · by_cases hcut : r' = r ∧ i :: q <:+ path
      · obtain ⟨rfl, pre, rfl⟩ := hcut
        by_cases hpre : pre = []
        · subst hpre
          rw [List.nil_append, hc] at hp
          cases hp
          exact Or.inl rfl
        · exact Or.inr (Or.inl (Or.inr ⟨pre, hpre, hp⟩))
      · refine Or.inr (Or.inr ⟨r', path, ?_⟩)
        rw [htable, if_neg hcut, hp]
  have hback : ∀ {p}, IsTable roots lost' s₁ p →
      IsTable roots lost s p ∧ p ≠ c := by
    rintro p ((hlost | ⟨pre, hpre, hp⟩) | ⟨r', path, hp⟩)
    · refine ⟨Or.inl hlost, ?_⟩
      rintro rfl
      exact h.forest.lostNotTable hlost hc
    · refine ⟨Or.inr ⟨_, _, hp⟩, ?_⟩
      rintro rfl
      have heq := (h.forest.inj hp hc).2
      exact hpre (List.append_left_eq_self.mp heq)
    · obtain ⟨hp', hcut⟩ := hkeep hp
      refine ⟨Or.inr ⟨_, _, hp'⟩, ?_⟩
      rintro rfl
      obtain ⟨rfl, rfl⟩ := h.forest.inj hp' hc
      exact hcut ⟨rfl, List.suffix_refl _⟩
  -- entries of page tables that are still there are as before
  have hpte : ∀ x : Slot, pteAt roots s₁ x = pteAt roots s x
      ∨ x.1 = r ∧ pteAt roots s₁ x = 0 := by
    intro x
    unfold pteAt
    rw [htable]
    split
    case h_1 g hg =>
        split at hg
        case isTrue => cases hg
        case isFalse =>
            refine Or.inl ?_
            rw [hg, hmem₁, setWord_mem, if_neg]
            rintro ⟨rfl, -⟩
            obtain ⟨rfl, rfl⟩ := h.forest.inj hf hg
            simp [tableAt] at hc
    case h_2 hg =>
        split at hg
        case isTrue hcut => exact Or.inr ⟨hcut.1, rfl⟩
        case isFalse => exact Or.inl (by rw [hg])
  have hother : ∀ x : Slot, x.1 ≠ r → pteAt roots s₁ x = pteAt roots s x := by
    intro x hx
    rcases hpte x with heq | ⟨hr, -⟩
    · exact heq
    · exact absurd hr hx
  have hempty' : ∀ x ∈ slots roots, x.1 = r →
      leafAt roots s₁ x = none := by
    intro x hx hr
    rcases hpte x with heq | ⟨-, hzero⟩
    · rw [leafAt, heq]
      exact hempty x hx hr
    · rw [leafAt, hzero, frameOf_zero]
  have huser : ∀ {p}, UserPage roots lost s p →
      UserPage roots lost' s₁ p ∧ s₁.mem p = s.mem p := by
    rintro p ⟨hm, hout, hnot⟩
    have hpc : p ≠ c := by
      rintro rfl
      exact hnot (Or.inr ⟨_, _, hc⟩)
    refine ⟨⟨hm, ?_, fun ht => hnot (hback ht).1⟩, ?_⟩
    · rw [hfree, Finset.mem_insert]
      rintro (heq | hin)
      · exact hpc heq
      · exact hout hin
    · funext j
      rw [hmem₁, setWord_mem, if_neg]
      rintro ⟨rfl, -⟩
      exact hnot (Or.inr ⟨_, _, hf⟩)
  have hleaf : ∀ x ∈ slots roots,
      leafAt roots s₁ x = leafAt roots s x := by
    intro x hx
    by_cases hr : x.1 = r
    · rw [hempty' x hx hr, hempty x hx hr]
    · rw [leafAt, hother x hr, leafAt]
  have hcount : ∀ p, mapCount roots s₁ p = mapCount roots s p :=
    fun p => Occurs.congr hleaf
  refine ⟨⟨⟨?_, ?_, ?_, ?_, ?_, ?_⟩, ?_, ?_, fun hp =>
    absurd hp (Nat.lt_irrefl 0)⟩, hempty', huser, hother⟩
  · intro r' path r'' path'' g hg hg'
    exact h.forest.inj (hkeep hg).1 (hkeep hg').1
  · intro r' path g hg
    exact h.forest.managed (hkeep hg).1
  · intro r' path g hg
    rw [hfree, Finset.mem_insert]
    rintro (rfl | hin)
    · exact (hback (Or.inr ⟨r', path, hg⟩)).2 rfl
    · exact h.forest.notFree (hkeep hg).1 hin
  · intro g hg
    rw [hfree, Finset.mem_insert] at hg
    rcases hg with rfl | hin
    · exact h.forest.managed hc
    · exact h.forest.freeManaged hin
  · intro g hlost
    rw [hfree, Finset.mem_insert]
    obtain ⟨ht, hne⟩ := hback (p := g) (Or.inl hlost)
    rintro (rfl | hin)
    · exact hne rfl
    · rcases hlost with hlost | ⟨pre, -, hg⟩
      · exact h.forest.lostNotFree hlost hin
      · exact h.forest.notFree hg hin
  · intro r' path g hlost hg
    obtain ⟨hg', hcut⟩ := hkeep hg
    rcases hlost with hlost | ⟨pre, -, hpre⟩
    · exact h.forest.lostNotTable hlost hg'
    · obtain ⟨rfl, rfl⟩ := h.forest.inj hpre hg'
      exact hcut ⟨rfl, pre, rfl⟩
  · intro p hp
    rw [hcount]
    show (Mm.freePage s c).ref p = _
    rw [freePage_ref]
    split
    case isTrue heq =>
        subst heq
        have hzero : mapCount roots s p = 0 := by
          by_contra hne
          exact (h.mapped_of_pos (Nat.pos_of_ne_zero hne)).2.2
            (Or.inr ⟨_, _, hc⟩)
        rw [hzero]
        rfl
    case isFalse hne =>
        refine h.ref_eq fun ht => ?_
        rcases hist ht with heq | ht'
        · exact hne heq
        · exact hp ht'
  · intro x p hx hp
    rw [hleaf x hx] at hp
    exact (huser (h.mapped hx hp)).1

end Prune

-- ======================================================== exit_range

section Exit

variable {r f d1 last start : Nat}

/-- A table that is cut off leaves the tables above it in place. -/
theorem prune_above {i c : Nat} {q : List Nat} (h : Forest roots lost s)
    (hf : tableAt roots s r q = some f) :
    tableAt roots ((freePage s c).setWord (f, i) 0) r q = some f := by
  have hmem : ((freePage s c).setWord (f, i) 0).mem
      = (s.setWord (f, i) 0).mem := rfl
  rw [tableAt_of_mem hmem, tableAt_prune h hf, if_neg, hf]
  rintro ⟨-, hsuf⟩
  have hle := hsuf.length_le
  rw [List.length_cons] at hle
  omega

/-- A round of the inner loop cuts off one page table or nothing. -/
theorem exitTable_spec (d0start : Nat) (free : Bool)
    (h : RefInv roots lost noHold s)
    (hempty : ∀ x ∈ slots roots, x.1 = r → leafAt roots s x = none)
    (hf : tableAt roots s r [d1] = some f) :
    ∃ b s' lost', exitTable s f d0start free = some (s', b)
      ∧ TornDown roots r lost lost' s s'
      ∧ tableAt roots s' r [d1] = some f := by
  have hi : pdx0 d0start < entries [d1] := pdx0_lt d0start
  have hkid := tableAt_cons hf (by simp) hi
  unfold exitTable
  cases hframe : frameOf (s.mem f (pdx0 d0start)) with
  | none =>
      rw [if_neg (frameOf_eq_none_iff.mp hframe)]
      exact ⟨false, s, lost, rfl, TornDown.refl h hempty, hf⟩
  | some pt =>
      rw [hframe] at hkid
      have hv : hasFlag (s.mem f (pdx0 d0start)) pteV := by
        by_contra hno
        rw [frameOf_eq_none_iff.mpr hno] at hframe
        cases hframe
      rw [if_pos hv, (h.forest.managed hkid).pde2page_eq hframe]
      dsimp only
      split
      case isTrue =>
          exact ⟨free, _, _, rfl, h.prune hempty hf hkid,
            prune_above h.forest hf⟩
      case isFalse => exact ⟨free, s, lost, rfl, TornDown.refl h hempty, hf⟩

/-- The inner loop of `exit_range` gives up tables of one directory. The
induction is on the fuel, one round for each page table up to the end of
the directory. -/
theorem exitTables_spec {d1start : Nat} :
    ∀ {fuel : Nat} {s : Machine M} {lost : Set Nat} {d0start : Nat}
      {free : Bool}, RefInv roots lost noHold s →
      (∀ x ∈ slots roots, x.1 = r → leafAt roots s x = none) →
      tableAt roots s r [d1] = some f → d0start < d1start + pdsize →
      d1start + pdsize ≤ d0start + fuel * ptsize →
      ∃ b s' lost', exitTables f d1start last fuel s d0start free
          = some (s', b)
        ∧ TornDown roots r lost lost' s s'
        ∧ tableAt roots s' r [d1] = some f := by
  intro fuel
  induction fuel with
  | zero =>
      intro s lost d0start free _ _ _ hlt hfuel
      omega
  | succ fuel ih =>
      intro s lost d0start free h hempty hf _ hfuel
      obtain ⟨b, s₁, lost₁, hround, htorn, hf₁⟩ :=
        exitTable_spec d0start free h hempty hf
      unfold exitTables
      rw [hround]
      dsimp only
      by_cases hmore : d0start + ptsize ≠ 0
          ∧ d0start + ptsize < d1start + pdsize ∧ d0start + ptsize < last
      · rw [if_pos hmore]
        rw [Nat.add_mul] at hfuel
        obtain ⟨b', s₂, lost₂, hrun, htorn₂, hf₂⟩ :=
          ih htorn.inv htorn.empty hf₁ hmore.2.1 (by omega)
        exact ⟨b', s₂, lost₂, hrun, htorn.trans htorn₂, hf₂⟩
      · rw [if_neg hmore]
        exact ⟨b, s₁, lost₁, rfl, htorn, hf₁⟩

/-- A round of the outer loop gives up tables of one directory, and
perhaps the directory. -/
theorem exitDir_spec {d1start d0start : Nat} (last : Nat)
    (h : RefInv roots lost noHold s) (hr : r ∈ roots)
    (hempty : ∀ x ∈ slots roots, x.1 = r → leafAt roots s x = none)
    (hd1 : pdx1 d1start < 511) (hlo : d1start ≤ d0start)
    (hhi : d0start < d1start + pdsize) :
    ∃ s' lost', exitDir s r d1start d0start last = some s'
      ∧ TornDown roots r lost lost' s s' := by
  have hroot := tableAt_root (s := s) hr
  have hkid := tableAt_cons hroot (by decide) (i := pdx1 d1start) hd1
  unfold exitDir
  cases hframe : frameOf (s.mem r (pdx1 d1start)) with
  | none =>
      rw [if_neg (frameOf_eq_none_iff.mp hframe)]
      exact ⟨s, lost, rfl, TornDown.refl h hempty⟩
  | some pd0 =>
      rw [hframe] at hkid
      have hv : hasFlag (s.mem r (pdx1 d1start)) pteV := by
        by_contra hno
        rw [frameOf_eq_none_iff.mpr hno] at hframe
        cases hframe
      have hfuel : d1start + pdsize ≤ d0start + 512 * ptsize := by
        have hpd : pdsize = 512 * ptsize := rfl
        omega
      obtain ⟨b, s₁, lost₁, hrun, htorn, hf₁⟩ :
          ∃ b s₁ lost₁, exitTables pd0 d1start last 512 s d0start true
              = some (s₁, b)
            ∧ TornDown roots r lost lost₁ s s₁
            ∧ tableAt roots s₁ r [pdx1 d1start] = some pd0 :=
        exitTables_spec h hempty hkid hhi hfuel
      rw [if_pos hv, (h.forest.managed hkid).pde2page_eq hframe]
      dsimp only
      rw [hrun]
      dsimp only
      have hroot₁ := tableAt_root (s := s₁) hr
      cases b with
      | false => exact ⟨s₁, lost₁, rfl, htorn⟩
      | true =>
          exact ⟨_, _, rfl,
            htorn.trans (htorn.inv.prune htorn.empty hroot₁ hf₁)⟩

/-- The outer loop of `exit_range`. The induction is on the fuel, one round
for each directory up to `last`. -/
theorem exitDirs_spec (hr : r ∈ roots) (hlast : last ≤ usertop) :
    ∀ {fuel : Nat} {s : Machine M} {lost : Set Nat} {d1start d0start : Nat},
      RefInv roots lost noHold s →
      (∀ x ∈ slots roots, x.1 = r → leafAt roots s x = none) →
      d1start < last → d1start ≤ d0start → d0start < d1start + pdsize →
      last ≤ d1start + fuel * pdsize →
      ∃ s' lost', exitDirs r last fuel s d1start d0start = some s'
        ∧ TornDown roots r lost lost' s s' := by
  intro fuel
  induction fuel with
  | zero =>
      intro s lost d1start d0start _ _ hlt _ _ hfuel
      omega
  | succ fuel ih =>
      intro s lost d1start d0start h hempty hlt hlo hhi hfuel
      have hd1 : pdx1 d1start < 511 := pdx1_user (by omega)
      obtain ⟨s₁, lost₁, hround, htorn⟩ :=
        exitDir_spec last h hr hempty hd1 hlo hhi
      unfold exitDirs
      rw [hround]
      dsimp only
      by_cases hmore : d1start + pdsize ≠ 0 ∧ d1start + pdsize < last
      · rw [if_pos hmore]
        rw [Nat.add_mul] at hfuel
        obtain ⟨s₂, lost₂, hrun, htorn₂⟩ :=
          ih htorn.inv htorn.empty hmore.2 (Nat.le_refl _) (by
            have hpd : 0 < pdsize := by decide
            omega) (by omega)
        exact ⟨s₂, lost₂, hrun, htorn.trans htorn₂⟩
      · rw [if_neg hmore]
        exact ⟨s₁, lost₁, rfl, htorn⟩

/-- `exit_range` gives up tables of an address space that maps nothing. -/
theorem exitRange_spec (h : RefInv roots lost noHold s) (hr : r ∈ roots)
    (hempty : ∀ x ∈ slots roots, x.1 = r → leafAt roots s x = none)
    (hstart : start % pgsize = 0) (hlast : last % pgsize = 0)
    (hua : userAccess start last) :
    ∃ s' lost', exitRange s r start last = some s'
      ∧ TornDown roots r lost lost' s s' := by
  have hpd : pdsize = 1073741824 := rfl
  have hpt : ptsize = 2097152 := rfl
  obtain ⟨-, hlt, htop⟩ := id hua
  unfold exitRange
  rw [if_pos ⟨hstart, hlast, hua⟩]
  refine exitDirs_spec hr htop h hempty ?_ ?_ ?_ ?_
  · rw [rounddown]
    omega
  · rw [rounddown, rounddown, hpd, hpt]
    omega
  · rw [rounddown, rounddown, hpd, hpt]
    omega
  · rw [rounddown, hpd]
    omega

end Exit

-- =================================================== removing a root

/-- A slot shows the same entry before and after, and the page it maps has
the same contents. -/
def SameView (roots : Finset Nat) (s : Machine M) (roots' : Finset Nat)
    (s' : Machine M) (x : Slot) : Prop :=
  pteAt roots' s' x = pteAt roots s x
    ∧ ∀ p, leafAt roots' s' x = some p → s'.mem p = s.mem p

theorem SameView.trans {roots₁ roots₂ roots₃ : Finset Nat}
    {s₁ s₂ s₃ : Machine M} {x : Slot} (h : SameView roots₁ s₁ roots₂ s₂ x)
    (h' : SameView roots₂ s₂ roots₃ s₃ x) :
    SameView roots₁ s₁ roots₃ s₃ x := by
  refine ⟨h'.1.trans h.1, fun p hp => (h'.2 p hp).trans (h.2 p ?_)⟩
  rw [leafAt, ← h'.1]
  exact hp

/-- What an edit leaves alone shows what it showed. -/
theorem Edits.sameView {X : Slot → Prop} {hold : Nat → Nat} {x : Slot}
    (e : Edits roots lost X s s') (h : RefInv roots lost hold s')
    (hx : x ∈ slots roots) (hX : ¬ X x) : SameView roots s roots s' x :=
  ⟨e.pte_eq hX, fun _ hp => e.mem_eq (h.mapped hx hp).2.2⟩

theorem TornDown.sameView {r : Nat} {x : Slot}
    (ht : TornDown roots r lost lost' s s') (h : RefInv roots lost noHold s)
    (hx : x ∈ slots roots) (hr : x.1 ≠ r) : SameView roots s roots s' x := by
  refine ⟨ht.other x hr, fun p hp => (ht.user ?_).2⟩
  rw [leafAt, ht.other x hr] at hp
  exact h.mapped hx hp

section RemoveRoot

variable {r : Nat}

theorem tableAt_removeRoot (hmem : s'.mem = s.mem) (r' : Nat)
    (path : List Nat) : tableAt (roots.erase r) s' r' path
      = if r' = r then none else tableAt roots s r' path := by
  induction path with
  | nil =>
      simp only [tableAt, Finset.mem_erase]
      by_cases hr : r' = r
      · simp [hr]
      · simp [hr]
  | cons i path ih =>
      simp only [tableAt, ih, hmem]
      by_cases hr : r' = r
      · simp [hr]
      · simp [hr]

/-- `put_pgdir` of an address space that maps nothing: its directory is
freed and the tables it still leads to are lost. -/
theorem RefInv.removeRoot (h : RefInv roots lost noHold s) (hr : r ∈ roots)
    (hempty : ∀ x ∈ slots roots, x.1 = r → leafAt roots s x = none) :
    RefInv (roots.erase r) (lost ∪ below roots s r []) noHold
        (Mm.freePage s r)
      ∧ ∀ x ∈ slots (roots.erase r),
          SameView roots s (roots.erase r) (Mm.freePage s r) x := by
  let lost' := lost ∪ below roots s r []
  let s₁ := Mm.freePage s r
  have hroot := tableAt_root (s := s) hr
  have hfree : s₁.free = insert r s.free :=
    freePage_free s r (h.forest.notFree hroot)
  have htable : ∀ r' path, tableAt (roots.erase r) s₁ r' path
      = if r' = r then none else tableAt roots s r' path :=
    tableAt_removeRoot rfl
  have hkeep : ∀ {r' path g}, tableAt (roots.erase r) s₁ r' path = some g →
      tableAt roots s r' path = some g ∧ r' ≠ r := by
    intro r' path g hg
    rw [htable] at hg
    split at hg
    case isTrue => cases hg
    case isFalse hne => exact ⟨hg, hne⟩
  have hist : ∀ {p}, IsTable roots lost s p → p = r
      ∨ IsTable (roots.erase r) lost' s₁ p := by
    rintro p (hlost | ⟨r', path, hp⟩)
    · exact Or.inr (Or.inl (Or.inl hlost))
    · by_cases hr' : r' = r
      · subst hr'
        by_cases hpath : path = []
        · subst hpath
          rw [hroot] at hp
          cases hp
          exact Or.inl rfl
        · exact Or.inr (Or.inl (Or.inr ⟨path, hpath, by simpa using hp⟩))
      · exact Or.inr (Or.inr ⟨r', path, by rw [htable, if_neg hr', hp]⟩)
  have hback : ∀ {p}, IsTable (roots.erase r) lost' s₁ p →
      IsTable roots lost s p ∧ p ≠ r := by
    rintro p ((hlost | ⟨pre, hpre, hp⟩) | ⟨r', path, hp⟩)
    · refine ⟨Or.inl hlost, ?_⟩
      rintro rfl
      exact h.forest.lostNotTable hlost hroot
    · refine ⟨Or.inr ⟨_, _, hp⟩, ?_⟩
      rintro rfl
      have heq := (h.forest.inj hp hroot).2
      exact hpre (by simpa using heq)
    · obtain ⟨hp', hne⟩ := hkeep hp
      refine ⟨Or.inr ⟨_, _, hp'⟩, ?_⟩
      rintro rfl
      exact hne (h.forest.inj hp' hroot).1
  have hpte : ∀ x : Slot, x.1 ≠ r →
      pteAt (roots.erase r) s₁ x = pteAt roots s x := by
    intro x hx
    unfold pteAt
    rw [htable, if_neg hx]
    rfl
  have hslots : ∀ x ∈ slots (roots.erase r), x ∈ slots roots ∧ x.1 ≠ r := by
    rintro ⟨r', d1, d0, t⟩ hx
    rw [mem_slots, Finset.mem_erase] at hx
    rw [mem_slots]
    exact ⟨⟨hx.1.2, hx.2⟩, hx.1.1⟩
  have huser : ∀ {p}, UserPage roots lost s p →
      UserPage (roots.erase r) lost' s₁ p := by
    rintro p ⟨hm, hout, hnot⟩
    refine ⟨hm, ?_, fun ht => hnot (hback ht).1⟩
    rw [hfree, Finset.mem_insert]
    rintro (rfl | hin)
    · exact hnot (Or.inr ⟨_, _, hroot⟩)
    · exact hout hin
  have hcount : ∀ p, mapCount (roots.erase r) s₁ p = mapCount roots s p := by
    intro p
    symm
    apply Occurs.subset
    · exact fun x hx => (hslots x hx).1
    · intro x hx
      rw [leafAt, leafAt, hpte x (hslots x hx).2]
    · rintro ⟨r', d1, d0, t⟩ hx hout
      have hr' : r' = r := by
        by_contra hne
        rw [mem_slots] at hx hout
        exact hout ⟨Finset.mem_erase.mpr ⟨hne, hx.1⟩, hx.2⟩
      rw [hempty _ hx hr']
      exact fun h => by cases h
  refine ⟨⟨⟨?_, ?_, ?_, ?_, ?_, ?_⟩, ?_, ?_, fun hp =>
    absurd hp (Nat.lt_irrefl 0)⟩, fun x hx =>
      ⟨hpte x (hslots x hx).2, fun _ _ => rfl⟩⟩
  · intro r' path r'' path'' g hg hg'
    exact h.forest.inj (hkeep hg).1 (hkeep hg').1
  · intro r' path g hg
    exact h.forest.managed (hkeep hg).1
  · intro r' path g hg
    rw [hfree, Finset.mem_insert]
    rintro (rfl | hin)
    · exact (hback (Or.inr ⟨r', path, hg⟩)).2 rfl
    · exact h.forest.notFree (hkeep hg).1 hin
  · intro g hg
    rw [hfree, Finset.mem_insert] at hg
    rcases hg with rfl | hin
    · exact h.forest.managed hroot
    · exact h.forest.freeManaged hin
  · intro g hlost
    rw [hfree, Finset.mem_insert]
    obtain ⟨-, hne⟩ := hback (p := g) (Or.inl hlost)
    rintro (rfl | hin)
    · exact hne rfl
    · rcases hlost with hlost | ⟨pre, -, hg⟩
      · exact h.forest.lostNotFree hlost hin
      · exact h.forest.notFree hg hin
  · intro r' path g hlost hg
    obtain ⟨hg', hne⟩ := hkeep hg
    rcases hlost with hlost | ⟨pre, -, hpre⟩
    · exact h.forest.lostNotTable hlost hg'
    · exact hne (h.forest.inj hpre hg').1.symm
  · intro p hp
    rw [hcount]
    show (Mm.freePage s r).ref p = _
    rw [freePage_ref]
    split
    case isTrue heq =>
        subst heq
        have hzero : mapCount roots s p = 0 := by
          by_contra hne
          exact (h.mapped_of_pos (Nat.pos_of_ne_zero hne)).2.2
            (Or.inr ⟨_, _, hroot⟩)
        rw [hzero]
        rfl
    case isFalse hne =>
        refine h.ref_eq fun ht => ?_
        rcases hist ht with heq | ht'
        · exact hne heq
        · exact hp ht'
  · intro x p hx hp
    obtain ⟨hx', hne⟩ := hslots x hx
    rw [leafAt, hpte x hne] at hp
    exact huser (h.mapped hx' hp)

end RemoveRoot

-- ========================================================= exit_mmap

section ExitMmap

variable {r : Nat}

/-- Unmapping areas one after the other empties their slots. -/
theorem unmapVmas_spec (hr : r ∈ roots) :
    ∀ {vmas : List Vma} {s : Machine M}, RefInv roots lost noHold s →
      (∀ vma ∈ vmas, VmaOk vma) →
      ∃ s', unmapVmas r vmas s = some s' ∧ RefInv roots lost noHold s'
        ∧ Edits roots lost (SlotAt r (InVmas vmas)) s s'
        ∧ ∀ x, SlotAt r (InVmas vmas) x → leafAt roots s' x = none := by
  intro vmas
  induction vmas with
  | nil =>
      intro s h _
      refine ⟨s, rfl, h, Edits.refl _ s, ?_⟩
      rintro x ⟨va, ⟨vma, hin, -⟩, -⟩
      cases hin
  | cons vma vmas ih =>
      intro s h hok
      obtain ⟨hstart, hend, hua⟩ := hok vma List.mem_cons_self
      obtain ⟨s₁, hrun, hun⟩ := unmapRange_spec h hr hstart hend hua
      obtain ⟨s₂, hrun₂, hinv, hedits, hgone⟩ :=
        ih hun.inv fun v hv => hok v (List.mem_cons_of_mem _ hv)
      refine ⟨s₂, by rw [unmapVmas, hrun]; exact hrun₂, hinv, ?_, ?_⟩
      · refine (hun.edits.weaken ?_).trans (hedits.weaken ?_)
        · rintro x ⟨va, hva, rfl⟩
          exact ⟨va, ⟨vma, List.mem_cons_self, hva⟩, rfl⟩
        · rintro x ⟨va, ⟨v, hv, hva⟩, rfl⟩
          exact ⟨va, ⟨v, List.mem_cons_of_mem _ hv, hva⟩, rfl⟩
      · rintro x ⟨va, ⟨v, hv, hva⟩, rfl⟩
        by_cases hin : SlotAt r (InVmas vmas) (slotOf r va)
        · exact hgone _ hin
        · rcases List.mem_cons.mp hv with rfl | hv
          · rw [leafAt, hedits.pte_eq hin]
            exact hun.gone hva.1 hva.2
          · exact absurd ⟨va, ⟨v, hv, hva⟩, rfl⟩ hin

theorem exitVmas_spec (hr : r ∈ roots) :
    ∀ {vmas : List Vma} {s : Machine M} {lost : Set Nat},
      RefInv roots lost noHold s →
      (∀ x ∈ slots roots, x.1 = r → leafAt roots s x = none) →
      (∀ vma ∈ vmas, VmaOk vma) →
      ∃ s' lost', exitVmas r vmas s = some s'
        ∧ TornDown roots r lost lost' s s' := by
  intro vmas
  induction vmas with
  | nil => exact fun h hempty _ => ⟨_, _, rfl, TornDown.refl h hempty⟩
  | cons vma vmas ih =>
      intro s lost h hempty hok
      obtain ⟨hstart, hend, hua⟩ := hok vma List.mem_cons_self
      obtain ⟨s₁, lost₁, hrun, htorn⟩ :=
        exitRange_spec h hr hempty hstart hend hua
      obtain ⟨s₂, lost₂, hrun₂, htorn₂⟩ := ih htorn.inv htorn.empty
        fun v hv => hok v (List.mem_cons_of_mem _ hv)
      exact ⟨s₂, lost₂, by rw [exitVmas, hrun]; exact hrun₂,
        htorn.trans htorn₂⟩

/-- `exit_mmap` and `put_pgdir` take an address space away whose pages are
all mapped inside its areas; the others show what they showed. -/
theorem exitMmap_spec {mm : MmStruct} (h : RefInv roots lost noHold s)
    (hr : mm.pgdir ∈ roots) (hcount : mm.mmCount = 0)
    (hok : ∀ vma ∈ mm.mmapList, VmaOk vma)
    (hin : ∀ x ∈ slots roots, x.1 = mm.pgdir → leafAt roots s x ≠ none →
      SlotAt mm.pgdir (InVmas mm.mmapList) x) :
    ∃ s' lost', exitMmap s mm = some s'
      ∧ RefInv (roots.erase mm.pgdir) lost' noHold (freePage s' mm.pgdir)
      ∧ ∀ x ∈ slots (roots.erase mm.pgdir), SameView roots s
          (roots.erase mm.pgdir) (freePage s' mm.pgdir) x := by
  obtain ⟨s₁, hrun₁, hinv₁, hedits, hgone⟩ := unmapVmas_spec hr h hok
  have hempty : ∀ x ∈ slots roots, x.1 = mm.pgdir →
      leafAt roots s₁ x = none := by
    intro x hx hxr
    by_cases hX : SlotAt mm.pgdir (InVmas mm.mmapList) x
    · exact hgone x hX
    · rw [leafAt, hedits.pte_eq hX]
      by_contra hne
      exact hX (hin x hx hxr hne)
  obtain ⟨s₂, lost₂, hrun₂, htorn⟩ := exitVmas_spec hr hinv₁ hempty hok
  obtain ⟨hinv₃, hview⟩ := htorn.inv.removeRoot hr htorn.empty
  refine ⟨s₂, _, ?_, hinv₃, fun x hx => ?_⟩
  · rw [exitMmap, if_pos hcount, hrun₁]
    exact hrun₂
  · obtain ⟨r', d1, d0, t⟩ := x
    have hx' := mem_slots.mp hx
    rw [Finset.mem_erase] at hx'
    have hx₁ : (r', d1, d0, t) ∈ slots roots :=
      mem_slots.mpr ⟨hx'.1.2, hx'.2⟩
    have hX : ¬ SlotAt mm.pgdir (InVmas mm.mmapList) (r', d1, d0, t) := by
      rintro ⟨va, -, heq⟩
      cases heq
      exact hx'.1.1 rfl
    exact (hedits.sameView hinv₁ hx₁ hX).trans
      ((htorn.sameView hinv₁ hx₁ hx'.1.1).trans (hview _ hx))

end ExitMmap

end Ucore.Mm
