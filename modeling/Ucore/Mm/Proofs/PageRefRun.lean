/-
Runs of page table operations.

A run allocates pages and calls `page_insert`, `page_remove` and
`unmap_range` on any of the page tables, in any order. It starts from page
tables that map nothing. What a caller must respect is `Legal`: page
tables it was given, addresses below the kernel's root entry, pages it has
allocated, permission bits that fit in an entry.
-/
import Ucore.Mm.Proofs.PageRef

namespace Ucore.Mm

variable {M : PmmManager} {roots : Finset Nat} {s₀ s s' : Machine M}

-- ==================================================== the operations

/-- A call. -/
inductive Op where
  | allocPage
  | pageInsert (pgdir page la perm : Nat)
  | pageRemove (pgdir la : Nat)
  | unmapRange (pgdir start last : Nat)

/-- The memory a call leaves; `none` if it panics. -/
def exec (s : Machine M) : Op → Option (Machine M)
  | .allocPage =>
      match allocPage s with
      | none => some s
      | some (_, s) => some s
  | .pageInsert pgdir page la perm =>
      (pageInsert s pgdir page la perm).map Prod.snd
  | .pageRemove pgdir la => pageRemove s pgdir la
  | .unmapRange pgdir start last => unmapRange s pgdir start last

/-- The calls a caller may make. -/
def Legal (roots : Finset Nat) (s : Machine M) : Op → Prop
  | .allocPage => True
  | .pageInsert pgdir page la perm =>
      pgdir ∈ roots ∧ UserPage roots ∅ s page ∧ pdx1 la < 511 ∧ perm < 2 ^ 10
  | .pageRemove pgdir la => pgdir ∈ roots ∧ pdx1 la < 511
  | .unmapRange pgdir start last => pgdir ∈ roots ∧ start % pgsize = 0
      ∧ last % pgsize = 0 ∧ userAccess start last

/-- One legal call. -/
def Step (roots : Finset Nat) (s s' : Machine M) : Prop :=
  ∃ op, Legal roots s op ∧ exec s op = some s'

/-- Page tables that map nothing, and no references to any page. -/
structure Fresh (roots : Finset Nat) (s : Machine M) : Prop where
  forest : Forest roots ∅ s
  unmapped : ∀ x ∈ slots roots, leafAt roots s x = none
  ref_zero : ∀ {p}, ¬ IsTable roots ∅ s p → s.ref p = 0

/-- From `s` to `s'` exactly the pages whose number of mappings came down
to zero were given to `free_page`, once each. -/
def FreesLast (roots : Finset Nat) (s s' : Machine M) : Prop :=
  ∃ fs, s'.freed = fs ++ s.freed ∧ fs.Nodup ∧
    ∀ p, p ∈ fs ↔ 0 < mapCount roots s p ∧ mapCount roots s' p = 0

-- ========================================================== one call

theorem Fresh.refInv (h : Fresh roots s) : RefInv roots ∅ noHold s := by
  have hzero : ∀ p, mapCount roots s p = 0 := by
    intro p
    by_contra hne
    obtain ⟨x, hx, hleaf⟩ := mapCount_pos.mp (Nat.pos_of_ne_zero hne)
    rw [h.unmapped x hx] at hleaf
    cases hleaf
  refine ⟨h.forest, ?_, ?_, fun hp => absurd hp (Nat.lt_irrefl 0)⟩
  · intro p hp
    rw [h.ref_zero hp, hzero]
    rfl
  · intro x p hx hleaf
    rw [h.unmapped x hx] at hleaf
    cases hleaf

/-- A legal call does not panic, keeps counts and references equal, and
frees what it unmaps last. -/
theorem RefInv.exec (h : RefInv roots ∅ noHold s) {op : Op}
    (hop : Legal roots s op) :
    ∃ s', exec s op = some s' ∧ RefInv roots ∅ noHold s'
      ∧ Frees roots noHold s s' := by
  cases op with
  | allocPage =>
      cases halloc : Mm.allocPage s with
      | none =>
          exact ⟨s, by rw [Mm.exec, halloc], h,
            Frees.none rfl fun _ => le_rfl⟩
      | some a =>
          obtain ⟨page, s'⟩ := a
          obtain ⟨hinv, -, -, hfrees⟩ := h.allocPage halloc
          exact ⟨s', by rw [Mm.exec, halloc], hinv, hfrees⟩
  | pageInsert pgdir page la perm =>
      obtain ⟨hr, huser, hla, hperm⟩ := hop
      obtain ⟨b, s', hrun, hinv, -, hfrees, -⟩ :=
        pageInsert_spec h hr hla huser hperm
      exact ⟨s', by rw [Mm.exec, hrun]; rfl, hinv, hfrees⟩
  | pageRemove pgdir la =>
      obtain ⟨hr, hla⟩ := hop
      obtain ⟨s', hrun, hinv, -, -, hfrees⟩ := pageRemove_spec h hr hla
      exact ⟨s', hrun, hinv, hfrees⟩
  | unmapRange pgdir start last =>
      obtain ⟨hr, hstart, hlast, huser⟩ := hop
      obtain ⟨s', hrun, hun⟩ := unmapRange_spec h hr hstart hlast huser
      exact ⟨s', hrun, hun.inv, hun.frees⟩

/-- Every reachable state keeps the invariant. -/
theorem RefInv.run (h : Fresh roots s₀)
    (hrun : Relation.ReflTransGen (Step roots) s₀ s) :
    RefInv roots ∅ noHold s := by
  induction hrun with
  | refl => exact h.refInv
  | tail _ hstep ih =>
      obtain ⟨op, hop, hexec⟩ := hstep
      obtain ⟨s', hexec', hinv, -⟩ := ih.exec hop
      rw [hexec, Option.some.injEq] at hexec'
      exact hexec' ▸ hinv

-- ============================================================== runs

/-- In every reachable state the reference count of every page that is no
page table is the number of valid page table entries that map it; every
further call returns and gives to `free_page` exactly the pages it unmaps
last; and a page that is allocated enters with count 0. -/
theorem reachable_refs_exact (h : Fresh roots s₀)
    (hrun : Relation.ReflTransGen (Step roots) s₀ s) :
    (∀ p, ¬ IsTable roots ∅ s p → s.ref p = mapCount roots s p)
      ∧ (∀ op, Legal roots s op →
          ∃ s', exec s op = some s' ∧ FreesLast roots s s')
      ∧ ∀ page s', allocPage s = some (page, s') →
          UserPage roots ∅ s' page ∧ s'.ref page = 0 := by
  have hinv := RefInv.run h hrun
  refine ⟨fun p hp => hinv.ref_eq hp, ?_, ?_⟩
  · intro op hop
    obtain ⟨s', hexec, -, fs, hfreed, hnodup, hmem⟩ := hinv.exec hop
    exact ⟨s', hexec, fs, hfreed, hnodup, hmem⟩
  · intro page s' halloc
    obtain ⟨-, huser, href, -⟩ := hinv.allocPage halloc
    exact ⟨huser, href⟩

-- ======================================================= a first run

/-- A manager that hands out the lowest free page. -/
def lowestFirst : PmmManager where
  State := List Nat
  freeSet := List.toFinset
  allocPages
    | [] => none
    | p :: ps => some (p, ps.filter (· ≠ p))
  freePages σ p := p :: σ
  allocPages_spec := by
    intro σ p σ' h
    cases σ with
    | nil => cases h
    | cons q qs =>
        simp only [Option.some.injEq, Prod.mk.injEq] at h
        obtain ⟨rfl, rfl⟩ := h
        refine ⟨by simp, ?_⟩
        ext x
        simp only [List.toFinset_cons, List.mem_toFinset, List.mem_filter,
          Finset.mem_erase, Finset.mem_insert, decide_eq_true_eq]
        tauto
  freePages_spec := by
    intro σ p _
    exact List.toFinset_cons
  allocPages_some := by
    intro σ h
    cases σ with
    | nil => simp at h
    | cons q qs => rfl

/-- Cleared memory with one root and eight free pages after it. -/
def cleared : Machine lowestFirst where
  mem := fun _ _ => 0
  ref := fun _ => 0
  pmm := (List.range 8).map (0x80301 + ·)
  freed := []

theorem cleared_tableAt {r f : Nat} {path : List Nat}
    (h : tableAt roots cleared r path = some f) :
    path = [] ∧ f = r ∧ r ∈ roots := by
  cases path with
  | nil =>
      simp only [tableAt] at h
      by_cases hr : r ∈ roots
      · rw [if_pos hr] at h
        cases h
        exact ⟨rfl, rfl, hr⟩
      · rw [if_neg hr] at h
        cases h
  | cons i path =>
      have hzero : ∀ g, frameOf (cleared.mem g i) = none :=
        fun _ => frameOf_zero
      simp only [tableAt, hzero, Option.bind_fun_none, ite_self] at h
      cases h

theorem cleared_fresh (hroots : ∀ r ∈ roots, Managed r ∧ r ∉ cleared.free) :
    Fresh roots cleared := by
  have hfree : cleared.free = ((List.range 8).map (0x80301 + ·)).toFinset :=
    rfl
  refine ⟨⟨?_, ?_, ?_, ?_, fun hf => hf.elim, fun hf => hf.elim⟩, ?_,
    fun _ => rfl⟩
  · intro r path r' path' f hf hf'
    obtain ⟨rfl, rfl, -⟩ := cleared_tableAt hf
    obtain ⟨rfl, rfl, -⟩ := cleared_tableAt hf'
    exact ⟨rfl, rfl⟩
  · intro r path f hf
    obtain ⟨-, rfl, hr⟩ := cleared_tableAt hf
    exact (hroots f hr).1
  · intro r path f hf
    obtain ⟨-, rfl, hr⟩ := cleared_tableAt hf
    exact (hroots f hr).2
  · intro f hf
    rw [hfree] at hf
    simp only [List.mem_toFinset, List.mem_map, List.mem_range] at hf
    obtain ⟨i, hi, rfl⟩ := hf
    unfold Managed nbase npage
    omega
  · intro x _
    obtain ⟨r, d1, d0, t⟩ := x
    have hnone : tableAt roots cleared r [d0, d1] = none := by
      cases hf : tableAt roots cleared r [d0, d1] with
      | none => rfl
      | some f => exact absurd (cleared_tableAt hf).1 (by simp)
    simp only [leafAt, pteAt, hnone, frameOf_zero]

theorem cleared_fresh_one : Fresh {0x80300} cleared := by
  apply cleared_fresh
  intro r hr
  rw [Finset.mem_singleton] at hr
  subst hr
  unfold Managed Machine.free
  decide

/-- Mapping the first free page. -/
def mapFirst : Op :=
  .pageInsert 0x80300 0x80301 0x800000 (pteU ||| readWrite)

/-- One page is allocated, mapped and removed again. -/
theorem reachable_refs_exact_one : ∃ s s',
    Relation.ReflTransGen (Step {0x80300}) cleared s
      ∧ s.ref 0x80301 = 1 ∧ mapCount {0x80300} s 0x80301 = 1
      ∧ exec s (.pageRemove 0x80300 0x800000) = some s'
      ∧ FreesLast {0x80300} s s' ∧ s'.freed = [0x80301] := by
  have hla : pdx1 0x800000 < 511 := pdx1_user (by decide)
  obtain ⟨s₁, halloc⟩ :
      ∃ s₁, allocPage cleared = some (0x80301, s₁) := ⟨_, rfl⟩
  have hstep₁ : Step {0x80300} cleared s₁ :=
    ⟨.allocPage, trivial, by rw [exec, halloc]⟩
  obtain ⟨-, -, hpage⟩ := reachable_refs_exact cleared_fresh_one .refl
  have hlegal : Legal {0x80300} s₁ mapFirst :=
    ⟨by simp, (hpage 0x80301 s₁ halloc).1, hla, by decide⟩
  obtain ⟨-, hreturns, -⟩ :=
    reachable_refs_exact cleared_fresh_one (.single hstep₁)
  obtain ⟨s₂, hexec₂, -⟩ := hreturns _ hlegal
  have hrun : Relation.ReflTransGen (Step {0x80300}) cleared s₂ :=
    .tail (.single hstep₁) ⟨_, hlegal, hexec₂⟩
  obtain ⟨hrefs, hreturns₂, -⟩ := reachable_refs_exact cleared_fresh_one hrun
  obtain ⟨s₃, hexec₃, hfrees⟩ :=
    hreturns₂ (.pageRemove 0x80300 0x800000) ⟨by simp, hla⟩
  have href : ((exec cleared .allocPage).bind fun s =>
      (exec s mapFirst).map (·.ref 0x80301)) = some 1 := by
    decide +kernel
  have hleaf : ((exec cleared .allocPage).bind fun s =>
      (exec s mapFirst).map (leafAt {0x80300} · (slotOf 0x80300 0x800000)))
      = some (some 0x80301) := by
    decide +kernel
  have hfreed : ((exec cleared .allocPage).bind fun s =>
      (exec s mapFirst).bind fun s =>
        (exec s (.pageRemove 0x80300 0x800000)).map (·.freed))
      = some [0x80301] := by
    decide +kernel
  rw [exec, halloc] at href hleaf hfreed
  rw [Option.bind_some, hexec₂, Option.map_some, Option.some.injEq]
    at href hleaf
  rw [Option.bind_some, hexec₂, Option.bind_some, hexec₃, Option.map_some,
    Option.some.injEq] at hfreed
  have huser := (RefInv.run cleared_fresh_one hrun).mapped
    (slotOf_mem (by simp) hla) hleaf
  have hcount := hrefs 0x80301 huser.2.2
  rw [href] at hcount
  exact ⟨s₂, s₃, hrun, href, by exact_mod_cast hcount.symm, hexec₃,
    hfrees, hfreed⟩

/-- A parent's and a child's root. -/
def parentAndChild : Finset Nat := {0x80300, 0x80310}

/-- A parent with one page and a child without any. -/
theorem parent_first : ∃ s₁ s, allocPage cleared = some (0x80301, s₁)
    ∧ pageInsert s₁ 0x80300 0x80301 0x800000 pteUser = some (true, s)
    ∧ RefInv parentAndChild ∅ noHold s
    ∧ leafAt parentAndChild s (slotOf 0x80300 0x800000) = some 0x80301
    ∧ (∀ va, leafAt parentAndChild s (slotOf 0x80310 va) = none)
    ∧ s.free.card = 5 := by
  obtain ⟨s₁, halloc⟩ : ∃ s₁, allocPage cleared = some (0x80301, s₁) :=
    ⟨_, rfl⟩
  have hfresh : Fresh parentAndChild cleared := by
    apply cleared_fresh
    intro r hr
    simp only [parentAndChild, Finset.mem_insert, Finset.mem_singleton] at hr
    unfold Managed Machine.free
    rcases hr with rfl | rfl <;> decide
  obtain ⟨h₁, huser, -, -⟩ := hfresh.refInv.allocPage halloc
  have hmem₁ := (allocPage_spec halloc).2.2.1
  have hla : pdx1 0x800000 < 511 := by decide
  obtain ⟨b, s, hrun, h, hedits, -, hpte, -, -⟩ :=
    pageInsert_spec h₁ (r := 0x80300) (by decide) hla huser
      (show pteUser < 2 ^ 10 by decide)
  have hshown : ((allocPage cleared).bind fun a =>
      (pageInsert a.2 0x80300 0x80301 0x800000 pteUser).map fun c =>
        (c.1, c.2.free.card)) = some (true, 5) := by
    decide +kernel
  rw [halloc, Option.bind_some, hrun, Option.map_some, Option.some.injEq,
    Prod.mk.injEq] at hshown
  obtain ⟨rfl, hfree⟩ := hshown
  refine ⟨s₁, s, halloc, hrun, h, ?_, ?_, hfree⟩
  · rw [leafAt, hpte rfl]
    exact frameOf_pteCreate huser.1.lt (by decide)
  · intro va
    have hother : slotOf 0x80310 va ≠ slotOf 0x80300 0x800000 := by
      intro heq
      exact absurd (congrArg Prod.fst heq) (show 0x80310 ≠ 0x80300 by decide)
    have hsame : ∀ x, pteAt parentAndChild s₁ x
        = pteAt parentAndChild cleared x :=
      pteAt_congr fun _ _ g _ => by rw [hmem₁]
    have hnone : tableAt parentAndChild cleared 0x80310 [pdx0 va, pdx1 va]
        = none := by
      cases hf : tableAt parentAndChild cleared 0x80310 [pdx0 va, pdx1 va] with
      | none => rfl
      | some f => exact absurd (cleared_tableAt hf).1 (by simp)
    rw [leafAt, hedits.pte_eq hother, hsame]
    simp only [pteAt, slotOf, hnone, frameOf_zero]

end Ucore.Mm
