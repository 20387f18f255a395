/-
The page tables as a map from virtual pages to pages and permissions.

`lookup` reads the map through `get_page`, at one address. `Sets` says that
one virtual page of one root has a new value and everything else the old
one, and `page_table_map` that this is what `page_insert` and `page_remove`
do. The argument is about slots: `get_page` reads the slot of its address
(`lookup_eq`), and two addresses have the same slot exactly when they lie in
the same virtual page (`slotOf_eq_iff`).
-/
import Ucore.Mm.Proofs.PageRefRun

namespace Ucore.Mm

variable {M : PmmManager} {roots : Finset Nat} {lost : Set Nat}
  {s s' : Machine M} {r la page perm : Nat}

-- ===================================================== virtual pages

/-- The virtual page number of Sv39: the 27 bits above the page offset. -/
def vpn (la : Nat) : Nat := la / pgsize % 2 ^ 27

/-- The virtual pages from here on belong to the kernel: the last entry of
every root maps them. -/
def kernelVpn : Nat := 511 * 2 ^ 18

theorem pdx1_of_vpn (h : vpn la < kernelVpn) : pdx1 la < 511 := by
  unfold vpn kernelVpn pgsize at h
  rw [pdx1_eq]
  omega

/-- A virtual page of a root is a slot. -/
theorem slotOf_eq_iff {r' la' : Nat} :
    slotOf r' la' = slotOf r la ↔ r' = r ∧ vpn la' = vpn la := by
  simp only [slotOf, Prod.mk.injEq, pdx1_eq, pdx0_eq, ptx_eq, vpn, pgsize]
  omega

-- =========================================================== the map

/-- What the page tables say about an address: the page `get_page` returns,
with the flags of its entry. -/
def lookup (s : Machine M) (pgdir la : Nat) : Option (Nat × Nat) :=
  match getPage s pgdir la with
  | some (some page, some ptep) => some (page, s.word ptep % 2 ^ 10)
  | _ => none

/-- `get_page` returns, and reads the slot of the address. -/
theorem getPage_eq (h : RefInv roots lost noHold s) (hr : r ∈ roots)
    (hla : pdx1 la < 511) :
    ∃ ptep, getPage s r la = some (leafAt roots s (slotOf r la), ptep)
      ∧ (∀ p, ptep = some p → s.word p = pteAt roots s (slotOf r la))
      ∧ (ptep = none → leafAt roots s (slotOf r la) = none) := by
  unfold getPage
  rw [getPte_look h.forest hr hla]
  cases hf : tableAt roots s r [pdx0 la, pdx1 la] with
  | none =>
      have hleaf : leafAt roots s (slotOf r la) = none := by
        simp only [leafAt, pteAt, slotOf, hf, frameOf_zero]
      refine ⟨none, ?_, (fun _ h => by cases h), fun _ => hleaf⟩
      rw [hleaf]
      rfl
  | some f =>
      have hpte : pteAt roots s (slotOf r la) = s.word (f, ptx la) := by
        simp only [pteAt, slotOf, hf]
        rfl
      refine ⟨some (f, ptx la), ?_, ?_, fun h => by cases h⟩
      · cases hleaf : frameOf (s.word (f, ptx la)) with
        | none =>
            have hno := frameOf_eq_none_iff.1 hleaf
            simp only [Option.map_some, if_neg hno, leafAt, hpte, hleaf]
        | some page =>
            have hslot : leafAt roots s (slotOf r la) = some page := by
              rw [leafAt, hpte, hleaf]
            have huser := h.mapped (slotOf_mem hr hla) hslot
            have hv : hasFlag (s.word (f, ptx la)) pteV := by
              by_contra hno
              rw [frameOf_eq_none_iff.2 hno] at hleaf
              cases hleaf
            have hpage := huser.1.pte2page_eq hleaf
            simp only [Option.map_some, if_pos hv, hpage, hslot]
      · intro p hp
        cases hp
        exact hpte.symm

theorem lookup_eq (h : RefInv roots lost noHold s) (hr : r ∈ roots)
    (hla : pdx1 la < 511) :
    lookup s r la = (leafAt roots s (slotOf r la)).map fun page =>
      (page, pteAt roots s (slotOf r la) % 2 ^ 10) := by
  obtain ⟨ptep, hget, hword, hnone⟩ := getPage_eq h hr hla
  unfold lookup
  rw [hget]
  cases hleaf : leafAt roots s (slotOf r la) with
  | none => rfl
  | some page =>
      cases ptep with
      | some p =>
          rw [← hword p rfl]
          rfl
      | none =>
          rw [hnone rfl] at hleaf
          cases hleaf

/-- Slots that show the same are looked up the same. -/
theorem lookup_congr {r' la' : Nat} (h : RefInv roots lost noHold s)
    (h' : RefInv roots lost noHold s') (hr : r' ∈ roots)
    (hla : pdx1 la' < 511)
    (hpte : pteAt roots s' (slotOf r' la') = pteAt roots s (slotOf r' la')) :
    lookup s' r' la' = lookup s r' la' := by
  rw [lookup_eq h' hr hla, lookup_eq h hr hla, leafAt, leafAt, hpte]

/-- From `s` to `s'` one virtual page of one root got a value, and all
others kept theirs. -/
def Sets (roots : Finset Nat) (s s' : Machine M) (r la : Nat)
    (value : Option (Nat × Nat)) : Prop :=
  ∀ r' ∈ roots, ∀ la', vpn la' < kernelVpn → lookup s' r' la'
    = if r' = r ∧ vpn la' = vpn la then value else lookup s r' la'

/-- Editing one slot sets one virtual page. -/
theorem sets_of_edits {value : Option (Nat × Nat)}
    (h : RefInv roots lost noHold s) (h' : RefInv roots lost noHold s')
    (he : Edits roots lost (· = slotOf r la) s s')
    (hvalue : ∀ la', slotOf r la' = slotOf r la → pdx1 la' < 511 →
      r ∈ roots → lookup s' r la' = value) :
    Sets roots s s' r la value := by
  intro r' hr' la' hla'
  have hd1 := pdx1_of_vpn hla'
  by_cases hsame : r' = r ∧ vpn la' = vpn la
  · rw [if_pos hsame]
    obtain ⟨rfl, hv⟩ := hsame
    exact hvalue la' (slotOf_eq_iff.2 ⟨rfl, hv⟩) hd1 hr'
  · rw [if_neg hsame]
    apply lookup_congr h h' hr' hd1
    apply he.pte_eq
    intro heq
    exact hsame (slotOf_eq_iff.1 heq)

/-- `page_insert` maps the page at its address or, without memory for the
tables, changes no entry; `page_remove` unmaps. Neither touches another
virtual page. -/
theorem page_table_map (h : RefInv roots lost noHold s) (hr : r ∈ roots)
    (hla : vpn la < kernelVpn) (huser : UserPage roots lost s page)
    (hperm : perm < 2 ^ 10) :
    (∀ r' ∈ roots, ∀ la', vpn la' < kernelVpn → (getPage s r' la').isSome)
      ∧ (∃ ok s', pageInsert s r page la perm = some (ok, s')
        ∧ RefInv roots lost noHold s'
        ∧ (ok = true → Sets roots s s' r la (some (page, perm ||| pteV)))
        ∧ (ok = false →
          (∀ r' ∈ roots, ∀ la', vpn la' < kernelVpn →
            lookup s' r' la' = lookup s r' la')
          ∧ ∀ p, UserPage roots lost s p → s'.ref p = s.ref p))
      ∧ ∃ s', pageRemove s r la = some s' ∧ RefInv roots lost noHold s'
        ∧ Sets roots s s' r la none := by
  have hd1 := pdx1_of_vpn hla
  refine ⟨?_, ?_, ?_⟩
  · intro r' hr' la' hla'
    obtain ⟨ptep, hget, -⟩ := getPage_eq h hr' (pdx1_of_vpn hla')
    rw [hget]
    rfl
  · obtain ⟨ok, s', hrun, h', he, -, hpte, hgrown, -⟩ :=
      pageInsert_spec h hr hd1 huser hperm
    refine ⟨ok, s', hrun, h', ?_, ?_⟩
    · intro hok
      have hentry := hpte hok
      have hlow : pteV ||| perm < 2 ^ 10 :=
        Nat.or_lt_two_pow (by decide) hperm
      apply sets_of_edits h h' he
      intro la' hslot hd1' _
      rw [lookup_eq h' hr hd1', hslot, leafAt, hentry,
        frameOf_pteCreate huser.1.lt hlow, Option.map_some,
        pteCreate_mod hlow, ← Nat.or_assoc, Nat.or_self, Nat.or_comm]
    · intro hok
      obtain ⟨hg, -⟩ := hgrown hok
      refine ⟨?_, ?_⟩
      · intro r' hr' la' hla'
        exact lookup_congr h h' hr' (pdx1_of_vpn hla') (hg.pte_eq _)
      · intro p hp
        exact hg.ref_eq (hg.userPage hp).2.2
  · obtain ⟨s', hrun, h', he, hgone, -⟩ := pageRemove_spec h hr hd1
    refine ⟨s', hrun, h', ?_⟩
    apply sets_of_edits h h' he
    intro la' hslot hd1' _
    rw [lookup_eq h' hr hd1', hslot, hgone]
    rfl

/-- The first free page is mapped for the user. -/
theorem page_table_map_first : ∃ s s', allocPage cleared = some (0x80301, s)
    ∧ pageInsert s 0x80300 0x80301 0x800000 (pteU ||| readWrite)
      = some (true, s')
    ∧ Sets {0x80300} s s' 0x80300 0x800000
      (some (0x80301, pteU ||| readWrite ||| pteV)) := by
  obtain ⟨s, halloc⟩ : ∃ s, allocPage cleared = some (0x80301, s) :=
    ⟨_, rfl⟩
  obtain ⟨hinv, huser, -⟩ := cleared_fresh_one.refInv.allocPage halloc
  obtain ⟨-, ⟨ok, s', hrun, -, hsets, -⟩, -⟩ :=
    @page_table_map _ {0x80300} ∅ s 0x80300 0x800000 0x80301
      (pteU ||| readWrite) hinv (by decide) (by decide) huser (by decide)
  have hok : ((allocPage cleared).bind fun r =>
      (pageInsert r.2 0x80300 0x80301 0x800000 (pteU ||| readWrite)).map
        Prod.fst) = some true := by
    decide +kernel
  rw [halloc, Option.bind_some, hrun, Option.map_some,
    Option.some.injEq] at hok
  have htrue : ok = true := hok
  subst htrue
  exact ⟨s, s', halloc, hrun, hsets rfl⟩

end Ucore.Mm
