/-
Which faults of user programs the kernel survives.

An allocation panics when it finds no page, so what counts is how many
pages a fault takes: one for each table that is missing on the way to the
entry (`missing`), and one to be mapped. `faultWith_served` and
`faultWith_panics` say that `do_pgfault` returns exactly when there are as
many and the entry is empty or a swap entry; what is left of a trap is the
return value, which the handler asserts, and the flags of the process.
-/
import Ucore.Trap.Fault
import Ucore.Cow.Proofs.Fault
import Ucore.Swap.Proofs.Tables
import Ucore.Mm.Proofs.GetPte
import Ucore.Mm.Proofs.PageRefRun
import Ucore.Mm.Proofs.Vmm

namespace Ucore.Trap

open Mm (Machine Managed RefInv Forest Grown VmaOk Ret Slot candidate findVma
  findVma_eq getPte_exact missing noHold vmWrite tableAt pteAt slotOf)
open Swap (MmStruct swapOffset)

variable {M : PmmManager} {roots : Finset Nat} {lost : Set Nat}

-- ========================================================= the calls

section Calls

variable {k : Kernel M} {mm : MmStruct} {r la perm page f : Nat}

/-- A call that returned runs its function on the machine only. -/
theorem onMachine_eq {α : Type} {g : Machine M → Option (α × Machine M)}
    {a : α} {s : Machine M} (h : g k.machine = some (a, s)) :
    onMachine g k = some (a, { k with machine := s }) := by
  unfold onMachine
  rw [h]

/-- An allocation gives a page as long as one is free. -/
theorem allocPage_some (hpos : 0 < k.machine.free.card) :
    ∃ page s, Mm.allocPage k.machine = some (page, s)
      ∧ allocPage k = some (page, { k with machine := s })
      ∧ k.machine.free.card = s.free.card + 1 := by
  cases halloc : Mm.allocPage k.machine with
  | none =>
      rw [Mm.allocPage_none halloc, Finset.card_empty] at hpos
      omega
  | some a =>
      obtain ⟨page, s⟩ := a
      obtain ⟨hin, hfree, -⟩ := Mm.allocPage_spec halloc
      refine ⟨page, s, rfl, onMachine_eq halloc, ?_⟩
      rw [hfree]
      exact (Finset.card_erase_add_one hin).symm

/-- An allocation panics where no page is free. -/
theorem allocPage_panics (hzero : k.machine.free.card = 0) :
    allocPage k = none := by
  have hempty := Finset.card_eq_zero.1 hzero
  unfold allocPage onMachine
  cases halloc : Mm.allocPage k.machine with
  | none => rfl
  | some a =>
      obtain ⟨page, s⟩ := a
      have hin := (Mm.allocPage_spec halloc).1
      rw [hempty] at hin
      exact absurd hin (Finset.notMem_empty page)

/-- `get_pte` with `create` returns when there are pages for the missing
tables. -/
theorem getPte_some (h : RefInv roots lost noHold k.machine) (hr : r ∈ roots)
    (hla : pdx1 la < 511)
    (hpages : missing roots k.machine r la ≤ k.machine.free.card) :
    ∃ f s, getPte r la true k = some ((f, ptx la), { k with machine := s })
      ∧ RefInv roots lost noHold s
      ∧ tableAt roots s r [pdx0 la, pdx1 la] = some f
      ∧ (∀ x, pteAt roots s x = pteAt roots k.machine x)
      ∧ k.machine.free.card
        = s.free.card + missing roots k.machine r la := by
  obtain ⟨o, s, hget, hgrown, -, hnone, hsome⟩ := getPte_exact h.forest hr hla
  cases o with
  | none =>
      have hlt := hnone rfl
      omega
  | some ptep =>
      obtain ⟨f, rfl, hf, hcard⟩ := hsome ptep rfl
      refine ⟨f, s, ?_, h.grown hgrown, hf, hgrown.pte_eq, hcard⟩
      unfold getPte
      rw [Call.bind_of_eq _ (onMachine_eq hget)]
      rfl

/-- `get_pte` with `create` panics when there are not. -/
theorem getPte_panics (h : RefInv roots lost noHold k.machine)
    (hr : r ∈ roots) (hla : pdx1 la < 511)
    (hpages : k.machine.free.card < missing roots k.machine r la) :
    getPte r la true k = none := by
  obtain ⟨o, s, hget, hgrown, -, hnone, hsome⟩ := getPte_exact h.forest hr hla
  cases o with
  | none =>
      unfold getPte
      rw [Call.bind_of_eq _ (onMachine_eq hget)]
      rfl
  | some ptep =>
      obtain ⟨f, -, -, hcard⟩ := hsome ptep rfl
      omega

/-- Where there is a page table, `page_insert` returns and the entry maps
the page. -/
theorem pageInsert_some (h : RefInv roots lost noHold k.machine)
    (hr : r ∈ roots) (hla : pdx1 la < 511)
    (hf : tableAt roots k.machine r [pdx0 la, pdx1 la] = some f)
    (huser : Mm.UserPage roots lost k.machine page) (hperm : perm < 2 ^ 10) :
    ∃ s, pageInsert r page la perm k = some ((), { k with machine := s })
      ∧ RefInv roots lost noHold s
      ∧ pteAt roots s (slotOf r la) = pteCreate page (pteV ||| perm)
      ∧ ∀ x, x ≠ slotOf r la → pteAt roots s x = pteAt roots k.machine x := by
  obtain ⟨b, s, hrun, hinv, hedits, -, hpte, -, htable⟩ :=
    Mm.pageInsert_spec h hr hla huser hperm
  have hb : b = true := by
    apply (htable _).1
    rw [hf]
    exact fun h => by cases h
  subst hb
  refine ⟨s, ?_, hinv, hpte rfl, fun x hx => hedits.pte_eq hx⟩
  unfold pageInsert
  rw [Call.bind_of_eq _ (onMachine_eq hrun)]
  rfl

/-- A fresh page is mapped at an entry whose table is there, if there is a
page. -/
theorem pgdirAllocPage_some (h : RefInv roots lost noHold k.machine)
    (hcheck : k.checkMm = none) (hr : r ∈ roots) (hla : pdx1 la < 511)
    (hf : tableAt roots k.machine r [pdx0 la, pdx1 la] = some f)
    (hperm : perm < 2 ^ 10) (hpos : 0 < k.machine.free.card) :
    ∃ page s, pgdirAllocPage r la perm k
        = some (page, { k with machine := s })
      ∧ RefInv roots lost noHold s ∧ Managed page
      ∧ pteAt roots s (slotOf r la) = pteCreate page (pteV ||| perm)
      ∧ ∀ x, x ≠ slotOf r la → pteAt roots s x = pteAt roots k.machine x := by
  obtain ⟨page, s₁, halloc, hcall, -⟩ := allocPage_some hpos
  obtain ⟨hinv₁, huser, -, -⟩ := h.allocPage halloc
  obtain ⟨-, -, hmem, -⟩ := Mm.allocPage_spec halloc
  have hf₁ : tableAt roots s₁ r [pdx0 la, pdx1 la] = some f := by
    rw [Mm.tableAt_of_mem hmem, hf]
  let k₁ : Kernel M := { k with machine := s₁ }
  have hpte₁ : ∀ x, pteAt roots s₁ x = pteAt roots k.machine x :=
    Mm.pteAt_congr fun _ _ g _ => by rw [hmem]
  obtain ⟨s₂, hinsert, hinv₂, hpte, hothers⟩ :=
    pageInsert_some (k := k₁) hinv₁ hr hla hf₁ huser hperm
  let k₂ : Kernel M := { k with machine := s₂ }
  have hget : (Call.get : Call (Kernel M) _) k₂ = some (k₂, k₂) := rfl
  refine ⟨page, s₂, ?_, hinv₂, huser.1, hpte,
    fun x hx => (hothers x hx).trans (hpte₁ x)⟩
  unfold pgdirAllocPage
  rw [Call.bind_of_eq _ hcall, Call.bind_of_eq _ hinsert,
    Call.bind_of_eq _ hget]
  have hcheck₂ : k₂.checkMm = none := hcheck
  simp only [hcheck₂]
  rfl

/-- The entry of an address whose page table is there. -/
theorem getPte_look (h : Forest roots lost k.machine) (hr : r ∈ roots)
    (hla : pdx1 la < 511)
    (hf : tableAt roots k.machine r [pdx0 la, pdx1 la] = some f) :
    getPte r la false k = some ((f, ptx la), k) := by
  have hlook := Mm.getPte_look h hr hla
  rw [hf] at hlook
  unfold getPte
  rw [Call.bind_of_eq _ (onMachine_eq hlook)]
  rfl

/-- The machine after a slot's words were read into a page. -/
def readIn (k : Kernel M) (s : Machine M) (page offset : Nat) : Machine M :=
  { s with mem := Function.update s.mem page (k.disk offset) }

/-- A swap entry is read into a page, if there is one. -/
theorem swapIn_some (h : RefInv roots lost noHold k.machine)
    (hr : mm.pgdir ∈ roots) (hla : pdx1 la < 511)
    (hf : tableAt roots k.machine mm.pgdir [pdx0 la, pdx1 la] = some f)
    {offset : Nat}
    (hoff : swapOffset (pteAt roots k.machine (slotOf mm.pgdir la))
      = some offset)
    (hpos : 0 < k.machine.free.card) :
    ∃ page s, swapIn mm la k = some (page, { k with machine := s })
      ∧ RefInv roots lost noHold s
      ∧ Mm.UserPage roots lost s page
      ∧ tableAt roots s mm.pgdir [pdx0 la, pdx1 la] = some f
      ∧ ∀ x, pteAt roots s x = pteAt roots k.machine x := by
  obtain ⟨page, s₁, halloc, hcall, -⟩ := allocPage_some hpos
  obtain ⟨hinv₁, huser, -, -⟩ := h.allocPage halloc
  obtain ⟨-, -, hmem, -⟩ := Mm.allocPage_spec halloc
  have hf₁ : tableAt roots s₁ mm.pgdir [pdx0 la, pdx1 la] = some f := by
    rw [Mm.tableAt_of_mem hmem, hf]
  let k₁ : Kernel M := { k with machine := s₁ }
  have hlook : getPte mm.pgdir la false k₁ = some ((f, ptx la), k₁) :=
    getPte_look (k := k₁) hinv₁.forest hr hla hf₁
  have hword : s₁.word (f, ptx la)
      = pteAt roots k.machine (slotOf mm.pgdir la) := by
    simp only [pteAt, slotOf, hf, Machine.word]
    rw [hmem]
  -- the page that is read into is no table
  have hout : ∀ r' path g, tableAt roots s₁ r' path = some g →
      (readIn k s₁ page offset).mem g = s₁.mem g := by
    intro r' path g hg
    have hne : g ≠ page := by
      intro heq
      exact huser.2.2 (Or.inr ⟨r', path, heq ▸ hg⟩)
    exact Function.update_of_ne hne _ _
  have htable : ∀ r' path, tableAt roots (readIn k s₁ page offset) r' path
      = tableAt roots s₁ r' path :=
    Mm.tableAt_congr fun r' path g hg _ => hout r' path g hg
  have hinv₂ : RefInv roots lost noHold (readIn k s₁ page offset) := by
    apply hinv₁.congr hout
    · intro p hp
      exact Or.inl hp
    · intro p hp
      exact hinv₁.ref_eq hp
    · intro p hp
      exact absurd hp (Nat.lt_irrefl 0)
  have hpte₁ : ∀ x, pteAt roots s₁ x = pteAt roots k.machine x :=
    Mm.pteAt_congr fun _ _ g _ => by rw [hmem]
  refine ⟨page, readIn k s₁ page offset, ?_, hinv₂, ⟨huser.1, huser.2.1, ?_⟩,
    ?_, fun x => (Mm.pteAt_congr hout x).trans (hpte₁ x)⟩
  · have hget : (Call.get : Call (Kernel M) _) k₁ = some (k₁, k₁) := rfl
    unfold swapIn
    rw [Call.bind_of_eq _ hcall, Call.bind_of_eq _ hlook,
      Call.bind_of_eq _ hget]
    have hread : swapfsRead (k₁.machine.word (f, ptx la)) page k₁
        = some (0, { k with machine := readIn k s₁ page offset }) := by
      show swapfsRead (s₁.word (f, ptx la)) page k₁ = _
      unfold swapfsRead
      rw [hword, hoff]
      rfl
    rw [Call.bind_of_eq _ hread]
    rfl
  · intro hist
    rcases hist with hlost | ⟨r', path, hg⟩
    · exact huser.2.2 (Or.inl hlost)
    · rw [htable] at hg
      exact huser.2.2 (Or.inr ⟨r', path, hg⟩)
  · rw [htable, hf₁]

/-- Anything else is not: the kernel panics. -/
theorem swapIn_panics (h : RefInv roots lost noHold k.machine)
    (hr : mm.pgdir ∈ roots) (hla : pdx1 la < 511)
    (hf : tableAt roots k.machine mm.pgdir [pdx0 la, pdx1 la] = some f)
    (hno : swapOffset (pteAt roots k.machine (slotOf mm.pgdir la)) = none
      ∨ k.machine.free.card = 0) :
    swapIn mm la k = none := by
  unfold swapIn
  by_cases hzero : k.machine.free.card = 0
  · rw [Call.bind_of_none _ (allocPage_panics hzero)]
  · have hoff := hno.resolve_right hzero
    obtain ⟨page, s₁, halloc, hcall, -⟩ :=
      allocPage_some (Nat.pos_of_ne_zero hzero)
    obtain ⟨hinv₁, huser, -, -⟩ := h.allocPage halloc
    obtain ⟨-, -, hmem, -⟩ := Mm.allocPage_spec halloc
    have hf₁ : tableAt roots s₁ mm.pgdir [pdx0 la, pdx1 la] = some f := by
      rw [Mm.tableAt_of_mem hmem, hf]
    let k₁ : Kernel M := { k with machine := s₁ }
    have hlook : getPte mm.pgdir la false k₁ = some ((f, ptx la), k₁) :=
      getPte_look (k := k₁) hinv₁.forest hr hla hf₁
    have hget : (Call.get : Call (Kernel M) _) k₁ = some (k₁, k₁) := rfl
    have hread : swapfsRead (k₁.machine.word (f, ptx la)) page k₁ = none := by
      have hword : k₁.machine.word (f, ptx la)
          = pteAt roots k.machine (slotOf mm.pgdir la) := by
        simp only [pteAt, slotOf, hf]
        show s₁.mem f (ptx la) = _
        rw [hmem]
      unfold swapfsRead
      rw [hword, hoff]
      rfl
    rw [Call.bind_of_eq _ hcall, Call.bind_of_eq _ hlook,
      Call.bind_of_eq _ hget, Call.bind_of_none _ hread]

end Calls

-- ======================================================== do_pgfault

section DoPgfault

variable {k : Kernel M} {proc : Proc} {mm : MmStruct} {vma : Mm.Vma}
  {va : Nat}

/-- The entry can be filled: it is empty, or its page is in a slot of the
swap device. -/
def Fillable (pte : Nat) : Prop := pte = 0 ∨ swapOffset pte ≠ none

instance (pte : Nat) : Decidable (Fillable pte) :=
  inferInstanceAs (Decidable (_ ∨ _))

/-- `do_pgfault` gets through at an address of an area: there are the
pages it takes, and the entry can be filled. -/
def Served (roots : Finset Nat) (s : Machine M) (r va : Nat) : Prop :=
  missing roots s r va + 1 ≤ s.free.card
    ∧ Fillable (pteAt roots s (slotOf r va))

theorem faultPerm_lt (vma : Mm.Vma) : faultPerm vma < 2 ^ 10 := by
  unfold faultPerm
  by_cases h : hasFlag vma.vmFlags vmWrite
  · rw [if_pos h]
    decide
  · rw [if_neg h]
    decide

/-- An entry that can be filled is, with a page. -/
theorem resolveFault_some {f : Nat} (h : RefInv roots lost noHold k.machine)
    (hcheck : k.checkMm = none) (hpriv : mm.smPriv ≠ none)
    (hr : mm.pgdir ∈ roots) {la perm : Nat} (hla : pdx1 la < 511)
    (hf : tableAt roots k.machine mm.pgdir [pdx0 la, pdx1 la] = some f)
    (hperm : perm < 2 ^ 10) (hpos : 0 < k.machine.free.card)
    (hfill : Fillable (pteAt roots k.machine (slotOf mm.pgdir la))) :
    ∃ page k', resolveFault mm (f, ptx la) la perm k = some ((), k')
      ∧ RefInv roots lost noHold k'.machine
      ∧ pteAt roots k'.machine (slotOf mm.pgdir la)
        = pteCreate page (pteV ||| perm)
      ∧ (∀ x, x ≠ slotOf mm.pgdir la →
        pteAt roots k'.machine x = pteAt roots k.machine x)
      ∧ k'.checkMm = none ∧ k'.current = k.current := by
  have hword : k.machine.word (f, ptx la)
      = pteAt roots k.machine (slotOf mm.pgdir la) := by
    simp only [pteAt, slotOf, hf]
    rfl
  have hget : (Call.get : Call (Kernel M) _) k = some (k, k) := rfl
  unfold resolveFault
  rw [Call.bind_of_eq _ hget, hword]
  by_cases hzero : pteAt roots k.machine (slotOf mm.pgdir la) = 0
  · obtain ⟨page, s, hcall, hinv, -, hpte, hothers⟩ :=
      pgdirAllocPage_some h hcheck hr hla hf hperm hpos
    refine ⟨page, { k with machine := s }, ?_, hinv, hpte, hothers, hcheck,
      rfl⟩
    rw [if_pos hzero, Call.bind_of_eq _ hcall]
    rfl
  · obtain ⟨offset, hoff⟩ :=
      Option.ne_none_iff_exists'.1 (hfill.resolve_left hzero)
    obtain ⟨page, s₁, hswap, hinv₁, huser, hf₁, hpte₁⟩ :=
      swapIn_some h hr hla hf hoff hpos
    let k₁ : Kernel M := { k with machine := s₁ }
    obtain ⟨s₂, hinsert, hinv₂, hpte, hothers⟩ :=
      pageInsert_some (k := k₁) hinv₁ hr hla hf₁ huser hperm
    obtain ⟨head, hhead⟩ := Option.ne_none_iff_exists'.1 hpriv
    let k₂ : Kernel M := { k with machine := s₂ }
    let k₃ : Kernel M :=
      { k₂ with links := listAddBefore k₂.links head (.page page) }
    have hmap : swapMapSwappable mm page k₂ = some ((), k₃) := by
      unfold swapMapSwappable
      rw [hhead]
      rfl
    refine ⟨page,
      { k₃ with praVaddr := Function.update k₃.praVaddr page la }, ?_, hinv₂,
      hpte, fun x hx => (hothers x hx).trans (hpte₁ x), hcheck, rfl⟩
    rw [if_neg hzero, Call.bind_of_eq _ hswap, Call.bind_of_eq _ hinsert,
      Call.bind_of_eq _ hmap]
    rfl

/-- An entry that cannot be filled, or for which there is no page, has the
kernel panic. -/
theorem resolveFault_panics {f : Nat}
    (h : RefInv roots lost noHold k.machine) (hr : mm.pgdir ∈ roots)
    {la perm : Nat} (hla : pdx1 la < 511)
    (hf : tableAt roots k.machine mm.pgdir [pdx0 la, pdx1 la] = some f)
    (hno : k.machine.free.card = 0
      ∨ ¬ Fillable (pteAt roots k.machine (slotOf mm.pgdir la))) :
    resolveFault mm (f, ptx la) la perm k = none := by
  have hword : k.machine.word (f, ptx la)
      = pteAt roots k.machine (slotOf mm.pgdir la) := by
    simp only [pteAt, slotOf, hf]
    rfl
  have hget : (Call.get : Call (Kernel M) _) k = some (k, k) := rfl
  unfold resolveFault
  rw [Call.bind_of_eq _ hget, hword]
  by_cases hzero : pteAt roots k.machine (slotOf mm.pgdir la) = 0
  · have hfree := hno.resolve_right fun hfill => hfill (.inl hzero)
    have hcall : pgdirAllocPage mm.pgdir la perm k = none := by
      unfold pgdirAllocPage
      rw [Call.bind_of_none _ (allocPage_panics hfree)]
    rw [if_pos hzero, Call.bind_of_none _ hcall]
  · have hswap : swapIn mm la k = none := by
      apply swapIn_panics h hr hla hf
      rcases hno with hfree | hfill
      · exact .inr hfree
      · left
        by_contra hoff
        exact hfill (.inr hoff)
    rw [if_neg hzero, Call.bind_of_none _ hswap]

/-- The page of an address has the indices of the address. -/
theorem missing_page (r : Nat) : missing roots k.machine r
    (rounddown va pgsize) = missing roots k.machine r va := by
  obtain ⟨h1, h0, -⟩ := indices_of_page (rounddown_page va)
  rw [missing, missing, h1, h0]

/-- `do_pgfault`, with anything for what it does once it has the entry. -/
def faultWith
    (resolve : MmStruct → Nat × Nat → Nat → Nat → Call (Kernel M) Unit)
    (mm : MmStruct) (addr : Nat) : Call (Kernel M) (Ret × MmStruct) :=
  let mm' := mm.found addr
  match (findVma mm.toMmStruct addr).1 with
  | none => pure (.inval, mm')
  | some vma =>
      if addr < vma.vmStart then pure (.inval, mm')
      else do
        let perm := faultPerm vma
        let addr := rounddown addr pgsize
        let ptep ← getPte mm'.pgdir addr true
        resolve mm' ptep addr perm
        pure (.ok, mm')

/-- A way to resolve faults: it maps a page where the entry can be filled
and a page is free, and panics elsewhere. -/
structure Resolves (roots : Finset Nat) (lost : Set Nat) (fills : Nat → Prop)
    (resolve : MmStruct → Nat × Nat → Nat → Nat → Call (Kernel M) Unit) :
    Prop where
  maps : ∀ {k : Kernel M} {mm : MmStruct} {f la perm : Nat},
    RefInv roots lost noHold k.machine → k.checkMm = none →
    mm.smPriv ≠ none → mm.pgdir ∈ roots → pdx1 la < 511 →
    tableAt roots k.machine mm.pgdir [pdx0 la, pdx1 la] = some f →
    perm < 2 ^ 10 → 0 < k.machine.free.card →
    fills (pteAt roots k.machine (slotOf mm.pgdir la)) →
    ∃ page k', resolve mm (f, ptx la) la perm k = some ((), k')
      ∧ RefInv roots lost noHold k'.machine
      ∧ pteAt roots k'.machine (slotOf mm.pgdir la)
        = pteCreate page (pteV ||| perm)
      ∧ (∀ x, x ≠ slotOf mm.pgdir la →
        pteAt roots k'.machine x = pteAt roots k.machine x)
      ∧ k'.checkMm = none ∧ k'.current = k.current
  panics : ∀ {k : Kernel M} {mm : MmStruct} {f la perm : Nat},
    RefInv roots lost noHold k.machine → mm.pgdir ∈ roots → pdx1 la < 511 →
    tableAt roots k.machine mm.pgdir [pdx0 la, pdx1 la] = some f →
    (k.machine.free.card = 0
      ∨ ¬ fills (pteAt roots k.machine (slotOf mm.pgdir la))) →
    resolve mm (f, ptx la) la perm k = none

theorem resolveFault_resolves :
    Resolves roots lost Fillable (resolveFault (M := M)) :=
  ⟨fun h hcheck hpriv hr hla hf hperm hpos hfill =>
      resolveFault_some h hcheck hpriv hr hla hf hperm hpos hfill,
    fun h hr hla hf hno => resolveFault_panics h hr hla hf hno⟩

section FaultWith

variable
  {resolve : MmStruct → Nat × Nat → Nat → Nat → Call (Kernel M) Unit}

/-- At an address of an area with pages for the tables on the way: the
entry is there, and is resolved. -/
theorem faultWith_area
    (resolve : MmStruct → Nat × Nat → Nat → Nat → Call (Kernel M) Unit)
    (h : RefInv roots lost noHold k.machine)
    (hr : mm.pgdir ∈ roots) (hva : va < usertop)
    (hfind : candidate mm.toMmStruct va = some vma)
    (hpages : missing roots k.machine mm.pgdir va ≤ k.machine.free.card) :
    ∃ f s, RefInv roots lost noHold s
      ∧ tableAt roots s mm.pgdir
        [pdx0 (rounddown va pgsize), pdx1 (rounddown va pgsize)] = some f
      ∧ (∀ x, pteAt roots s x = pteAt roots k.machine x)
      ∧ k.machine.free.card
        = s.free.card + missing roots k.machine mm.pgdir va
      ∧ faultWith resolve mm va k
        = (resolve (mm.found va) (f, ptx (rounddown va pgsize))
            (rounddown va pgsize) (faultPerm vma) >>= fun _ =>
          pure (.ok, mm.found va)) { k with machine := s } := by
  have hlt : rounddown va pgsize < usertop :=
    Nat.lt_of_le_of_lt (Nat.sub_le _ _) hva
  have hd1 := pdx1_user hlt
  have hmiss : missing roots k.machine mm.pgdir (rounddown va pgsize)
      = missing roots k.machine mm.pgdir va := missing_page mm.pgdir
  rw [← hmiss] at hpages ⊢
  obtain ⟨f, s, hget, hinv, hf, hpte, hcard⟩ := getPte_some h hr hd1 hpages
  have hpgdir : (mm.found va).pgdir = mm.pgdir := by
    show (findVma mm.toMmStruct va).2.pgdir = _
    rw [findVma_eq]
  have hhas := (Mm.candidate_some hfind).1
  refine ⟨f, s, hinv, hf, hpte, hcard, ?_⟩
  unfold faultWith
  rw [findVma_eq, hfind]
  dsimp only
  rw [if_neg (Nat.not_lt.2 hhas.1), hpgdir, Call.bind_of_eq _ hget]

/-- Without pages for the tables the fault panics. -/
theorem faultWith_few (h : RefInv roots lost noHold k.machine)
    (hr : mm.pgdir ∈ roots) (hva : va < usertop)
    (hfind : candidate mm.toMmStruct va = some vma)
    (hfew : k.machine.free.card < missing roots k.machine mm.pgdir va) :
    faultWith resolve mm va k = none := by
  have hlt : rounddown va pgsize < usertop :=
    Nat.lt_of_le_of_lt (Nat.sub_le _ _) hva
  have hpgdir : (mm.found va).pgdir = mm.pgdir := by
    show (findVma mm.toMmStruct va).2.pgdir = _
    rw [findVma_eq]
  have hhas := (Mm.candidate_some hfind).1
  rw [← missing_page] at hfew
  unfold faultWith
  rw [findVma_eq, hfind]
  dsimp only
  rw [if_neg (Nat.not_lt.2 hhas.1), hpgdir,
    Call.bind_of_none _ (getPte_panics h hr (pdx1_user hlt) hfew)]

/-- Where there is no area, `do_pgfault` returns `-E_INVAL`. -/
theorem faultWith_inval (hfind : candidate mm.toMmStruct va = none) :
    faultWith resolve mm va k = some ((.inval, mm.found va), k) := by
  unfold faultWith
  rw [findVma_eq, hfind]
  rfl

/-- What `do_pgfault` leaves at an address it got through at: an entry with
the flags of the area. -/
theorem faultWith_served {fills : Nat → Prop}
    (hres : Resolves roots lost fills resolve)
    (h : RefInv roots lost noHold k.machine)
    (hcheck : k.checkMm = none) (hpriv : mm.smPriv ≠ none)
    (hr : mm.pgdir ∈ roots) (hva : va < usertop)
    (hfind : candidate mm.toMmStruct va = some vma)
    (hpages : missing roots k.machine mm.pgdir va + 1 ≤ k.machine.free.card)
    (hfill : fills (pteAt roots k.machine (slotOf mm.pgdir va))) :
    ∃ page k', faultWith resolve mm va k = some ((.ok, mm.found va), k')
      ∧ RefInv roots lost noHold k'.machine
      ∧ pteAt roots k'.machine (slotOf mm.pgdir va)
        = pteCreate page (pteV ||| faultPerm vma)
      ∧ (∀ x, x ≠ slotOf mm.pgdir va →
        pteAt roots k'.machine x = pteAt roots k.machine x)
      ∧ k'.checkMm = none ∧ k'.current = k.current := by
  have hlt : rounddown va pgsize < usertop :=
    Nat.lt_of_le_of_lt (Nat.sub_le _ _) hva
  have hslot : slotOf mm.pgdir (rounddown va pgsize) = slotOf mm.pgdir va :=
    Mm.slotOf_eq (rounddown_page va)
  obtain ⟨f, s₁, hinv₁, hf₁, hpte₁, hcard, hrun₁⟩ :=
    faultWith_area resolve h hr hva hfind
      (Nat.le_of_succ_le hpages)
  let k₁ : Kernel M := { k with machine := s₁ }
  have hpos : 0 < k₁.machine.free.card := by
    show 0 < s₁.free.card
    omega
  have hpgdir : (mm.found va).pgdir = mm.pgdir := by
    show (findVma mm.toMmStruct va).2.pgdir = _
    rw [findVma_eq]
  have hpriv' : (mm.found va).smPriv ≠ none := hpriv
  obtain ⟨page, k', hrun, hinv, hpte, hothers, hcheck', hcurrent⟩ :=
    hres.maps (k := k₁) hinv₁ hcheck hpriv' (by rw [hpgdir]; exact hr)
      (pdx1_user hlt) (by rw [hpgdir]; exact hf₁) (faultPerm_lt vma) hpos
      (by rw [hpgdir, hslot, hpte₁]; exact hfill)
  rw [hpgdir, hslot] at hpte hothers
  refine ⟨page, k', ?_, hinv, hpte,
    fun x hx => (hothers x hx).trans (hpte₁ x), hcheck', hcurrent⟩
  rw [hrun₁, Call.bind_of_eq _ hrun]
  rfl

/-- At an address of an area that it does not get through at, `do_pgfault`
panics. -/
theorem faultWith_panics {fills : Nat → Prop}
    (hres : Resolves roots lost fills resolve)
    (h : RefInv roots lost noHold k.machine)
    (hr : mm.pgdir ∈ roots) (hva : va < usertop)
    (hfind : candidate mm.toMmStruct va = some vma)
    (hno : ¬ (missing roots k.machine mm.pgdir va + 1 ≤ k.machine.free.card
      ∧ fills (pteAt roots k.machine (slotOf mm.pgdir va)))) :
    faultWith resolve mm va k = none := by
  by_cases hle : missing roots k.machine mm.pgdir va ≤ k.machine.free.card
  · have hlt : rounddown va pgsize < usertop :=
      Nat.lt_of_le_of_lt (Nat.sub_le _ _) hva
    have hslot : slotOf mm.pgdir (rounddown va pgsize) = slotOf mm.pgdir va :=
      Mm.slotOf_eq (rounddown_page va)
    have hpgdir : (mm.found va).pgdir = mm.pgdir := by
      show (findVma mm.toMmStruct va).2.pgdir = _
      rw [findVma_eq]
    obtain ⟨f, s₁, hinv₁, hf₁, hpte₁, hcard, hrun₁⟩ :=
      faultWith_area resolve h hr hva hfind hle
    let k₁ : Kernel M := { k with machine := s₁ }
    have hstuck : k₁.machine.free.card = 0
        ∨ ¬ fills (pteAt roots k₁.machine (slotOf (mm.found va).pgdir
          (rounddown va pgsize))) := by
      rw [hpgdir, hslot]
      by_contra hboth
      obtain ⟨hfree, hfill⟩ := not_or.1 hboth
      apply hno
      refine ⟨?_, ?_⟩
      · have hfree' : s₁.free.card ≠ 0 := hfree
        omega
      · rw [← hpte₁]
        exact not_not.1 hfill
    have hpanic : resolve (mm.found va) (f, ptx (rounddown va pgsize))
        (rounddown va pgsize) (faultPerm vma) k₁ = none := by
      apply hres.panics (k := k₁) hinv₁ _ (pdx1_user hlt) _ hstuck
      · rw [hpgdir]
        exact hr
      · rw [hpgdir]
        exact hf₁
    rw [hrun₁, Call.bind_of_none _ hpanic]
  · exact faultWith_few h hr hva hfind (Nat.lt_of_not_le hle)

end FaultWith

theorem doPgfault_eq : doPgfault mm va = faultWith (M := M) resolveFault mm va :=
  rfl

end DoPgfault

-- ============================================================= traps

section Trap

variable {k : Kernel M} {proc : Proc} {mm : MmStruct} {va : Nat}

/-- A process in user mode, with page tables whose references are counted,
areas of user addresses, and a list head for the swap manager. -/
structure UserState (roots : Finset Nat) (lost : Set Nat) (k : Kernel M)
    (proc : Proc) (mm : MmStruct) : Prop where
  user : InUser k proc mm
  refs : RefInv roots lost noHold k.machine
  root : mm.pgdir ∈ roots
  areas : ∀ vma ∈ mm.mmapList, VmaOk vma
  cached : ∀ vma ∈ mm.mmapCache, vma ∈ mm.mmapList
  head : mm.smPriv ≠ none

/-- An address at which `find_vma` finds an area is a user address. -/
theorem UserState.user_address (h : UserState roots lost k proc mm)
    {vma : Mm.Vma} (hfind : candidate mm.toMmStruct va = some vma) :
    va < usertop := by
  obtain ⟨hhas, hfrom⟩ := Mm.candidate_some hfind
  have hin : vma ∈ mm.mmapList := by
    rcases hfrom with hin | hin
    · exact hin
    · exact h.cached vma hin
  have hok := (h.areas vma hin).2.2
  exact Nat.lt_of_lt_of_le hhas.2 hok.2.2

/-- The entry of a user address is the one in its slot. -/
theorem userEntry_eq {s : Machine M} {r : Nat} (hr : r ∈ roots)
    (hva : va < usertop) : userEntry s r va = pteAt roots s (slotOf r va) := by
  have hd1 : pdx1 va < 511 := pdx1_user hva
  have hlt : usertop < 2 ^ 38 := by decide
  have hcanonical : Canonical va := .inl (Nat.lt_trans hva hlt)
  unfold userEntry
  rw [if_pos ⟨hcanonical, Nat.ne_of_lt hd1⟩]
  exact Cow.walk_eq hr hd1

/-- The handler returns when `do_pgfault` returns 0, and only then. -/
theorem handlePgfault_eq (va : Nat) (h : InUser k proc mm) :
    handlePgfault va k = match doPgfault mm va k with
      | some ((.ok, mm'), k') => some ((),
          { k' with current := some { proc with mm := some mm' } })
      | _ => none := by
  obtain ⟨hcheck, hcurrent, hmm⟩ := h
  have hhandler : pgfaultHandler va k = match doPgfault mm va k with
      | some ((ret, mm'), k') => some (ret,
          { k' with current := some { proc with mm := some mm' } })
      | none => none := by
    have hget : (Call.get : Call (Kernel M) _) k = some (k, k) := rfl
    unfold pgfaultHandler
    rw [Call.bind_of_eq _ hget]
    simp only [hcheck, hcurrent]
    rw [Call.bind_of_eq (a := proc) _ rfl, hmm, Call.bind_of_eq (a := mm) _ rfl]
    cases hdo : doPgfault mm va k with
    | none =>
        rw [Call.bind_of_none _ hdo]
    | some r =>
        rw [Call.bind_of_eq _ hdo]
        rfl
  unfold handlePgfault
  cases hdo : doPgfault mm va k with
  | none =>
      rw [hdo] at hhandler
      rw [Call.bind_of_none _ hhandler]
  | some r =>
      obtain ⟨⟨ret, mm'⟩, k'⟩ := r
      rw [hdo] at hhandler
      rw [Call.bind_of_eq _ hhandler]
      cases ret <;> rfl

/-- The entry `do_pgfault` leaves permits loads and stores when the area is
writable, and neither when it is not: `perm` is then `PTE_U` alone. -/
theorem permits_pteCreate {cause : Cause} {page : Nat} {vma : Mm.Vma}
    (hcause : cause = .loadPageFault ∨ cause = .storePageFault) :
    Permits cause (pteCreate page (pteV ||| faultPerm vma))
      ↔ hasFlag vma.vmFlags vmWrite := by
  have hlt : pteV ||| faultPerm vma < 2 ^ 10 :=
    Nat.or_lt_two_pow (by decide) (faultPerm_lt vma)
  have hv := hasFlag_pteCreate (p := page) hlt
  have hbit : ∀ n, n < 10 → n ≠ 0 →
      (pteCreate page (pteV ||| faultPerm vma)).testBit n
        = (pteV ||| faultPerm vma).testBit n :=
    fun n hn hn0 => testBit_pteCreate hn hn0
  unfold Permits
  rw [hasFlag_pteU, hbit 4 (by decide) (by decide)]
  by_cases hw : hasFlag vma.vmFlags vmWrite
  · have hperm : faultPerm vma = pteU ||| readWrite := if_pos hw
    refine ⟨fun _ => hw, fun _ => ⟨hv, by rw [hperm]; rfl, ?_⟩⟩
    rcases hcause with rfl | rfl
    · show hasFlag _ pteR
      rw [hasFlag_pteR, hbit 1 (by decide) (by decide), hperm]
      rfl
    · show hasFlag _ pteW
      rw [hasFlag_pteW, hbit 2 (by decide) (by decide), hperm]
      rfl
  · have hperm : faultPerm vma = pteU := if_neg hw
    refine ⟨fun h => absurd h.2.2 ?_, fun h => absurd h hw⟩
    rcases hcause with rfl | rfl
    · show ¬ hasFlag _ pteR
      rw [hasFlag_pteR, hbit 1 (by decide) (by decide), hperm]
      decide
    · show ¬ hasFlag _ pteW
      rw [hasFlag_pteW, hbit 2 (by decide) (by decide), hperm]
      decide

/-- A fetch fault is only printed: the process refaults, unless it is
exiting. -/
theorem fetch_handled_iff (h : InUser k proc mm)
    (hfault : ¬ Permits .fetchPageFault (userEntry k.machine mm.pgdir va)) :
    Handled k mm .fetchPageFault va ↔ hasFlag proc.flags pfExiting := by
  have hget : (Call.get : Call (Kernel M) _) k = some (k, k) := rfl
  have hdone : exceptionHandler .fetchPageFault va k = some ((), k) := rfl
  have htrap : trap .fetchPageFault va k
      = if hasFlag proc.flags pfExiting then some (.exited, k)
        else some (.resumed, k) := by
    unfold trap
    rw [Call.bind_of_eq _ hdone, Call.bind_of_eq _ hget, h.2.1,
      Call.bind_of_eq (a := proc) _ rfl]
    by_cases hexit : hasFlag proc.flags pfExiting
    · rw [if_pos hexit, if_pos hexit]
      rfl
    · rw [if_neg hexit, if_neg hexit]
      rfl
  unfold Handled
  rw [htrap]
  by_cases hexit : hasFlag proc.flags pfExiting
  · rw [if_pos hexit]
    exact ⟨fun _ => hexit, fun _ => ⟨_, _, rfl, fun h => (by cases h)⟩⟩
  · rw [if_neg hexit]
    refine ⟨?_, fun h => absurd h hexit⟩
    intro hhandled
    obtain ⟨outcome, k', heq, hpermits⟩ := hhandled
    cases heq
    exact absurd (hpermits rfl) hfault

/-- A load or store fault is handled where `do_pgfault` gets through, if
its entry permits the access or the process is exiting. -/
theorem access_handled_iff {cause : Cause}
    (h : UserState roots lost k proc mm)
    (hcause : cause = .loadPageFault ∨ cause = .storePageFault) :
    Handled k mm cause va ↔ ∃ vma, (findVma mm.toMmStruct va).1 = some vma
      ∧ Served roots k.machine mm.pgdir va
      ∧ (hasFlag vma.vmFlags vmWrite ∨ hasFlag proc.flags pfExiting) := by
  have hhandler : exceptionHandler cause va k = handlePgfault va k := by
    rcases hcause with rfl | rfl <;> rfl
  have hpage := handlePgfault_eq va h.user
  rw [findVma_eq]
  unfold Handled trap
  cases hfind : candidate mm.toMmStruct va with
  | none =>
      rw [doPgfault_eq, faultWith_inval hfind] at hpage
      rw [Call.bind_of_none _ (hhandler.trans hpage)]
      constructor
      · intro hhandled
        obtain ⟨outcome, k', heq, -⟩ := hhandled
        cases heq
      · intro hserved
        obtain ⟨vma, hvma, -⟩ := hserved
        cases hvma
  | some vma =>
      have hva := h.user_address hfind
      by_cases hserved : Served roots k.machine mm.pgdir va
      · obtain ⟨page, k', hrun, hinv, hpte, -, hcheck', hcurrent⟩ :=
          faultWith_served resolveFault_resolves h.refs h.user.1 h.head h.root
            hva hfind hserved.1 hserved.2
        rw [doPgfault_eq, hrun] at hpage
        have hproc : (Call.ofOption (some { proc with mm := some (mm.found va) })
              : Call (Kernel M) Proc)
            = pure { proc with mm := some (mm.found va) } := rfl
        rw [Call.bind_of_eq _ (hhandler.trans hpage),
          Call.bind_of_eq (a := _) _ rfl, hproc,
          Call.bind_of_eq (a := { proc with mm := some (mm.found va) }) _ rfl]
        have hentry : userEntry k'.machine mm.pgdir va
            = pteCreate page (pteV ||| faultPerm vma) := by
          rw [userEntry_eq h.root hva, hpte]
        have hpermits : Permits cause (pteCreate page (pteV ||| faultPerm vma))
            ↔ hasFlag vma.vmFlags vmWrite := permits_pteCreate hcause
        by_cases hexit : hasFlag proc.flags pfExiting
        · rw [if_pos hexit]
          constructor
          · intro _
            exact ⟨vma, rfl, hserved, .inr hexit⟩
          · intro _
            exact ⟨_, _, rfl, fun h => (by cases h)⟩
        · rw [if_neg hexit]
          constructor
          · intro hhandled
            obtain ⟨outcome, k'', heq, hresumed⟩ := hhandled
            cases heq
            have hentry' := hresumed rfl
            refine ⟨vma, rfl, hserved, .inl (hpermits.1 ?_)⟩
            rw [← hentry]
            exact hentry'
          · intro hwrite
            obtain ⟨vma', hvma, -, hor⟩ := hwrite
            cases hvma
            refine ⟨_, _, rfl, fun _ => ?_⟩
            show Permits cause (userEntry k'.machine mm.pgdir va)
            rw [hentry]
            exact hpermits.2 (hor.resolve_right hexit)
      · rw [doPgfault_eq, faultWith_panics resolveFault_resolves h.refs h.root
          hva hfind hserved] at hpage
        rw [Call.bind_of_none _ (hhandler.trans hpage)]
        constructor
        · intro hhandled
          obtain ⟨outcome, k', heq, -⟩ := hhandled
          cases heq
        · intro hok
          obtain ⟨vma', -, hserved', -⟩ := hok
          exact absurd hserved' hserved

/-- The faults that the kernel handles: a fetch fault of an exiting
process, and a load or store fault in an area where the entry is empty or
a swap entry, the pages for it are there, and the area is writable or the
process is exiting. -/
def Survivable (roots : Finset Nat) (k : Kernel M) (proc : Proc)
    (mm : MmStruct) (cause : Cause) (va : Nat) : Prop :=
  if cause = .fetchPageFault then hasFlag proc.flags pfExiting
  else ∃ vma, (findVma mm.toMmStruct va).1 = some vma
    ∧ Served roots k.machine mm.pgdir va
    ∧ (hasFlag vma.vmFlags vmWrite ∨ hasFlag proc.flags pfExiting)

/-- A page fault of a user program ends that process or is resolved exactly
where it is survivable. -/
theorem user_fault_handled_iff {cause : Cause}
    (h : UserState roots lost k proc mm)
    (hcause : cause = .fetchPageFault ∨ cause = .loadPageFault
      ∨ cause = .storePageFault)
    (hfault : ¬ Permits cause (userEntry k.machine mm.pgdir va)) :
    Handled k mm cause va ↔ Survivable roots k proc mm cause va := by
  unfold Survivable
  rcases hcause with rfl | hcause
  · rw [if_pos rfl]
    exact fetch_handled_iff h.user hfault
  · have hne : cause ≠ .fetchPageFault := by
      rcases hcause with rfl | rfl <;> exact fun h => by cases h
    rw [if_neg hne]
    exact access_handled_iff h hcause

end Trap

-- ==================================================== a user program

/-- The areas of a program: one, writable. -/
def progMm : MmStruct where
  mmapList := [⟨0x800000, 0x802000, Mm.vmRead ||| vmWrite⟩]
  mmapCache := none
  pgdir := 0x80300
  mapCount := 1
  mmCount := 1
  smPriv := some .praListHead

/-- The program's process. -/
def prog : Proc := ⟨3, some progMm, 0⟩

/-- The program runs, with eight free pages. -/
def running : Kernel Mm.lowestFirst where
  machine := Mm.cleared
  praVaddr := fun _ => 0
  links := ⟨fun a => a, fun a => a⟩
  disk := fun _ _ => 0
  checkMm := none
  current := some prog

theorem running_userState : UserState {0x80300} ∅ running prog progMm where
  user := ⟨rfl, rfl, rfl⟩
  refs := Mm.cleared_fresh_one.refInv
  root := by decide
  areas := by
    intro vma hin
    rw [List.mem_singleton.1 hin]
    exact ⟨by decide, by decide, by decide⟩
  cached := fun _ h => by cases h
  head := fun h => by cases h

/-- A store to the program's area faults and is resolved. -/
theorem user_fault_handled_iff_store :
    Handled running progMm .storePageFault 0x801000 := by
  apply (user_fault_handled_iff running_userState (.inr (.inr rfl))
    (by decide)).2
  exact ⟨_, rfl, ⟨by decide, by decide⟩, .inl (by decide)⟩

/-- A load from address 0 panics. -/
theorem load_from_null_unhandled :
    UserState {0x80300} ∅ running prog progMm
      ∧ ¬ Permits .loadPageFault (userEntry running.machine progMm.pgdir 0)
      ∧ ¬ Handled running progMm .loadPageFault 0 := by
  refine ⟨running_userState, by decide, ?_⟩
  intro hhandled
  obtain ⟨outcome, k', hrun, -⟩ := hhandled
  have hpanic : (trap .loadPageFault 0 running).isNone := by decide
  rw [hrun] at hpanic
  cases hpanic

end Ucore.Trap
