/-
What `do_pgfault` grants, beside what the area permits.

Inside an area it never returns an error, whatever the access was: an
access the area forbids is resolved like any other. And the entry it makes
depends on `VM_WRITE` alone, so in an area that may be read but not written
it permits no access at all.
-/
import Ucore.Trap.Fault
import Ucore.Trap.Proofs.Fault

namespace Ucore.Trap

open Mm (RefInv VmaOk Ret Sorted candidate findVma findVma_eq findVma_spec
  missing noHold vmRead vmWrite tableAt pteAt slotOf)
open Swap (MmStruct)

variable {M : PmmManager} {roots : Finset Nat} {lost : Set Nat}
  {k : Kernel M} {proc : Proc} {mm : MmStruct} {vma : Mm.Vma} {va : Nat}
  {cause : Cause}

-- ================================================= what is permitted

/-- The area with an address. -/
def AreaOf (mm : MmStruct) (va : Nat) (vma : Mm.Vma) : Prop :=
  vma ∈ mm.mmapList ∧ vma.Has va

/-- The flag of an area that permits the access. -/
def vmaFlag : Cause → Nat
  | .storePageFault => vmWrite
  | _ => vmRead

/-- The area permits the access. -/
def VmaPermits (cause : Cause) (vma : Mm.Vma) : Prop :=
  hasFlag vma.vmFlags (vmaFlag cause)

/-- What a call of `do_pgfault` should do, given what it returned and left:
where the area permits the access and the page is unmapped, 0 means that
the entry permits it; where no area does, it is an error and the same is
mapped as before. -/
structure Granted (k : Kernel M) (mm : MmStruct) (cause : Cause) (va : Nat)
    (result : Option ((Ret × MmStruct) × Kernel M)) : Prop where
  permitted : ∀ vma, AreaOf mm va vma → VmaPermits cause vma →
    ¬ hasFlag (userEntry k.machine mm.pgdir va) pteV →
    ∀ mm' k', result = some ((.ok, mm'), k') →
      Permits cause (userEntry k'.machine mm.pgdir va)
  forbidden : (∀ vma, AreaOf mm va vma → ¬ VmaPermits cause vma) →
    ∃ ret mm' k', result = some ((ret, mm'), k') ∧ ret ≠ .ok
      ∧ ∀ va', userEntry k'.machine mm.pgdir va'
        = userEntry k.machine mm.pgdir va'

-- ======================================================== do_pgfault

section

variable {fills : Nat → Prop}
  {resolve : MmStruct → Nat × Nat → Nat → Nat → Call (Kernel M) Unit}

/-- Outside of all areas an access is refused as it should be. -/
theorem granted_outside (h : UserState roots lost k proc mm)
    (hno : ∀ vma, ¬ AreaOf mm va vma) :
    Granted k mm cause va (faultWith resolve mm va k) := by
  have hfind : candidate mm.toMmStruct va = none := by
    cases hc : candidate mm.toMmStruct va with
    | none => rfl
    | some vma =>
        obtain ⟨hhas, hfrom⟩ := Mm.candidate_some hc
        have hin : vma ∈ mm.mmapList := by
          rcases hfrom with hin | hin
          · exact hin
          · exact h.cached vma hin
        exact absurd ⟨hin, hhas⟩ (hno vma)
  refine ⟨fun vma hvma => absurd hvma (hno vma), ?_⟩
  intro _
  exact ⟨_, _, _, faultWith_inval hfind, (fun h => by cases h), fun _ => rfl⟩

/-- Inside an area `do_pgfault` does what it should exactly when the area
permits the access, and the page is mapped already, or the area is
writable, or the fault cannot be resolved. -/
theorem granted_inside (hres : Resolves roots lost fills resolve)
    (h : UserState roots lost k proc mm) (hsorted : Sorted mm.mmapList)
    (hvma : AreaOf mm va vma)
    (hcause : cause = .loadPageFault ∨ cause = .storePageFault) :
    Granted k mm cause va (faultWith resolve mm va k)
      ↔ VmaPermits cause vma
        ∧ (hasFlag (userEntry k.machine mm.pgdir va) pteV
          ∨ hasFlag vma.vmFlags vmWrite
          ∨ ¬ (missing roots k.machine mm.pgdir va + 1
              ≤ k.machine.free.card
            ∧ fills (pteAt roots k.machine (slotOf mm.pgdir va)))) := by
  obtain ⟨hin, hhas⟩ := hvma
  have hfind : candidate mm.toMmStruct va = some vma := by
    have hspec := findVma_spec hsorted h.cached hin hhas
    rw [findVma_eq] at hspec
    exact congrArg Prod.fst hspec
  have hva := h.user_address hfind
  have honly : ∀ v, AreaOf mm va v → v = vma := by
    intro v hv
    have hspec := findVma_spec hsorted h.cached hv.1 hv.2
    rw [findVma_eq, hfind] at hspec
    exact (Option.some.inj (congrArg Prod.fst hspec)).symm
  constructor
  · intro hgranted
    by_cases hpermits : VmaPermits cause vma
    · refine ⟨hpermits, ?_⟩
      by_contra hno
      obtain ⟨hv, hno⟩ := not_or.1 hno
      obtain ⟨hw, hserved⟩ := not_or.1 hno
      obtain ⟨hpages, hfill⟩ := not_not.1 hserved
      obtain ⟨page, k', hrun, -, hpte, -⟩ := faultWith_served hres h.refs
        h.user.1 h.head h.root hva hfind hpages hfill
      have hentry := hgranted.permitted vma ⟨hin, hhas⟩ hpermits hv _ _ hrun
      rw [userEntry_eq h.root hva, hpte, permits_pteCreate hcause] at hentry
      exact hw hentry
    · -- a forbidden access returns 0, or does not return
      exfalso
      obtain ⟨ret, mm', k', hrun, hret, -⟩ := hgranted.forbidden (by
        intro v hv
        rw [honly v hv]
        exact hpermits)
      by_cases hserved : missing roots k.machine mm.pgdir va + 1
          ≤ k.machine.free.card
          ∧ fills (pteAt roots k.machine (slotOf mm.pgdir va))
      · obtain ⟨page, k₁, hok, -⟩ := faultWith_served hres h.refs h.user.1
          h.head h.root hva hfind hserved.1 hserved.2
        rw [hok] at hrun
        cases hrun
        exact hret rfl
      · rw [faultWith_panics hres h.refs h.root hva hfind hserved] at hrun
        cases hrun
  · intro hcond
    obtain ⟨hpermits, hor⟩ := hcond
    refine ⟨?_, fun hno => absurd hpermits (hno vma ⟨hin, hhas⟩)⟩
    intro v hv _ hunmapped mm' k' hrun
    by_cases hserved : missing roots k.machine mm.pgdir va + 1
        ≤ k.machine.free.card
        ∧ fills (pteAt roots k.machine (slotOf mm.pgdir va))
    · obtain ⟨page, k₁, hok, -, hpte, -⟩ := faultWith_served hres h.refs
        h.user.1 h.head h.root hva hfind hserved.1 hserved.2
      rw [hok] at hrun
      cases hrun
      rw [userEntry_eq h.root hva, hpte, permits_pteCreate hcause]
      rcases hor with hmapped | hw | hno
      · exact absurd hmapped hunmapped
      · exact hw
      · exact absurd hserved hno
    · rw [faultWith_panics hres h.refs h.root hva hfind hserved] at hrun
      cases hrun

end

-- ============================================================== lab8

/-- The fault of lab8 maps a page where the entry is empty, and nowhere
else. -/
theorem Lab8.resolveFault_resolves :
    Resolves roots lost (· = 0) (Lab8.resolveFault (M := M)) where
  maps := by
    intro k mm f la perm h hcheck _ hr hla hf hperm hpos hzero
    have hword : k.machine.word (f, ptx la)
        = pteAt roots k.machine (slotOf mm.pgdir la) := by
      simp only [pteAt, slotOf, hf]
      rfl
    have hget : (Call.get : Call (Kernel M) _) k = some (k, k) := rfl
    obtain ⟨page, s, hcall, hinv, -, hpte, hothers⟩ :=
      pgdirAllocPage_some h hcheck hr hla hf hperm hpos
    refine ⟨page, { k with machine := s }, ?_, hinv, hpte, hothers, hcheck,
      rfl⟩
    unfold Lab8.resolveFault
    rw [Call.bind_of_eq _ hget, hword, if_pos hzero, Call.bind_of_eq _ hcall]
    rfl
  panics := by
    intro k mm f la perm h hr hla hf hno
    have hword : k.machine.word (f, ptx la)
        = pteAt roots k.machine (slotOf mm.pgdir la) := by
      simp only [pteAt, slotOf, hf]
      rfl
    have hget : (Call.get : Call (Kernel M) _) k = some (k, k) := rfl
    unfold Lab8.resolveFault
    rw [Call.bind_of_eq _ hget, hword]
    by_cases hzero : pteAt roots k.machine (slotOf mm.pgdir la) = 0
    · have hfree := hno.resolve_right fun hfill => hfill hzero
      have hcall : pgdirAllocPage mm.pgdir la perm k = none := by
        unfold pgdirAllocPage
        rw [Call.bind_of_none _ (allocPage_panics hfree)]
      rw [if_pos hzero, Call.bind_of_none _ hcall]
    · rw [if_neg hzero]
      rfl

-- ======================================================== the grants

/-- Where `do_pgfault` does what the areas say: outside of them, and at an
access that the area permits and that finds the page mapped, the area
writable, or the fault not to be resolved. `fills` says which entries can
be filled. -/
def GrantsRightly (roots : Finset Nat) (fills : Nat → Prop) (k : Kernel M)
    (mm : MmStruct) (cause : Cause) (va : Nat) : Prop :=
  ∀ vma, AreaOf mm va vma → VmaPermits cause vma
    ∧ (hasFlag (userEntry k.machine mm.pgdir va) pteV
      ∨ hasFlag vma.vmFlags vmWrite
      ∨ ¬ (missing roots k.machine mm.pgdir va + 1 ≤ k.machine.free.card
        ∧ fills (pteAt roots k.machine (slotOf mm.pgdir va))))

theorem granted_iff {fills : Nat → Prop}
    {resolve : MmStruct → Nat × Nat → Nat → Nat → Call (Kernel M) Unit}
    (hres : Resolves roots lost fills resolve)
    (h : UserState roots lost k proc mm) (hsorted : Sorted mm.mmapList)
    (hcause : cause = .loadPageFault ∨ cause = .storePageFault) :
    Granted k mm cause va (faultWith resolve mm va k)
      ↔ GrantsRightly roots fills k mm cause va := by
  by_cases harea : ∃ vma, AreaOf mm va vma
  · obtain ⟨vma, hvma⟩ := harea
    constructor
    · intro hgranted v hv
      exact (granted_inside hres h hsorted hv hcause).1 hgranted
    · intro hright
      exact (granted_inside hres h hsorted hvma hcause).2 (hright vma hvma)
  · have hno : ∀ vma, ¬ AreaOf mm va vma := fun vma hvma => harea ⟨vma, hvma⟩
    constructor
    · intro _ vma hvma
      exact absurd hvma (hno vma)
    · intro _
      exact granted_outside h hno

/-- For both kernels, every process, address and load or store. -/
theorem pgfault_grants_iff (h : UserState roots lost k proc mm)
    (hsorted : Sorted mm.mmapList)
    (hcause : cause = .loadPageFault ∨ cause = .storePageFault) :
    (Granted k mm cause va (doPgfault mm va k)
        ↔ GrantsRightly roots Fillable k mm cause va)
      ∧ (Granted k mm cause va (Lab8.doPgfault mm va k)
        ↔ GrantsRightly roots (· = 0) k mm cause va) :=
  ⟨granted_iff resolveFault_resolves h hsorted hcause,
    granted_iff Lab8.resolveFault_resolves h hsorted hcause⟩

/-- A store to the program's writable area is granted. -/
theorem pgfault_grants_iff_store :
    Granted running progMm .storePageFault 0x801000
      (doPgfault progMm 0x801000 running) := by
  have hsorted : Sorted progMm.mmapList := List.pairwise_singleton _ _
  apply (pgfault_grants_iff running_userState hsorted (.inr rfl)).1.2
  intro vma hvma
  obtain rfl := List.mem_singleton.1 hvma.1
  have hpermits : VmaPermits .storePageFault
      ⟨0x800000, 0x802000, vmRead ||| vmWrite⟩ := by
    unfold VmaPermits
    decide
  exact ⟨hpermits, .inr (.inl (by decide))⟩

-- ================================================== a read-only area

/-- The areas of a program that only reads: one, without `VM_WRITE`. -/
def textMm : MmStruct :=
  { progMm with mmapList := [⟨0x800000, 0x802000, vmRead⟩] }

/-- That program runs, with eight free pages. -/
def reading : Kernel Mm.lowestFirst :=
  { running with current := some { prog with mm := some textMm } }

theorem reading_userState :
    UserState {0x80300} ∅ reading { prog with mm := some textMm } textMm where
  user := ⟨rfl, rfl, rfl⟩
  refs := Mm.cleared_fresh_one.refInv
  root := by decide
  areas := by
    intro vma hin
    rw [List.mem_singleton.1 hin]
    exact ⟨by decide, by decide, by decide⟩
  cached := fun _ h => by cases h
  head := fun h => by cases h

/-- A load from the area returns 0 with an entry that permits no load. -/
theorem load_from_text_not_granted :
    UserState {0x80300} ∅ reading { prog with mm := some textMm } textMm
      ∧ ¬ Granted reading textMm .loadPageFault 0x801000
        (doPgfault textMm 0x801000 reading)
      ∧ ¬ Granted reading textMm .loadPageFault 0x801000
        (Lab8.doPgfault textMm 0x801000 reading) := by
  have harea : AreaOf textMm 0x801000 ⟨0x800000, 0x802000, vmRead⟩ :=
    ⟨List.mem_singleton.2 rfl, by decide, by decide⟩
  have hpermits : VmaPermits .loadPageFault
      ⟨0x800000, 0x802000, vmRead⟩ := by
    unfold VmaPermits
    decide
  have hunmapped : ¬ hasFlag (userEntry reading.machine textMm.pgdir 0x801000)
      pteV := by decide
  -- what the two kernels return, and the entry they leave
  have hfails : ∀ result : Option ((Ret × MmStruct) × Kernel Mm.lowestFirst),
      (result.map fun r => (r.1.1, decide (Permits .loadPageFault
        (userEntry r.2.machine textMm.pgdir 0x801000)))) = some (.ok, false) →
      ¬ Granted reading textMm .loadPageFault 0x801000 result := by
    intro result hresult hgranted
    cases result with
    | none => cases hresult
    | some r =>
        obtain ⟨⟨ret, mm'⟩, k'⟩ := r
        rw [Option.map_some, Option.some.injEq, Prod.mk.injEq] at hresult
        obtain ⟨rfl, hno⟩ := hresult
        have hentry := hgranted.permitted _ harea hpermits hunmapped _ _ rfl
        exact of_decide_eq_false hno hentry
  refine ⟨reading_userState, hfails _ ?_, hfails _ ?_⟩
  · decide +kernel
  · decide +kernel

end Ucore.Trap
