/-
Several address spaces over one swap device: what the shared list head and
the slot numbers allow.

# The condition

The list `pra_list_head` is one for all, `mm_create` empties it, a slot of
the device belongs to an address and not to an `mm_struct`, and
`page_remove` takes no page off the queue. `Good` says when an operation
runs into none of this. As long as one address space alone serves faults,
`Paged` is its invariant; with a second one the queue stays empty.
-/
import Ucore.Swap.System
import Ucore.Swap.Proofs.Fault
import Ucore.Mm.Proofs.PageRefRun

namespace Ucore.Swap

open Ucore.Ring
open Mm (Managed Vma findVma)

variable {M : PmmManager} {s t u : State M} {d n : Nat} {q q' : List Nat}
  {i : Nat} {sm : Manager} {val : MmStruct}

-- ====================================================== the property

/-- A page is on the queue of an `mm_struct`. -/
def OnQueue (s : State M) (mm : MmStruct) (p : Nat) : Prop :=
  ∃ (h : Link) (q : List Nat), mm.smPriv = some h
    ∧ IsRing s.links h (q.map .page) ∧ p ∈ q

/-- The page of a slot was swapped out. -/
def SwappedOut (s : State M) (pgdir : Nat) (x : Slot) : Prop :=
  s.lookup pgdir x ≠ 0 ∧ frameOf (s.lookup pgdir x) = none

/-- Pages that are swapped out lie in slots of their own, and a page on the
queue of an `mm_struct` is mapped there at its `pra_vaddr`. -/
structure Separate (s : State M) : Prop where
  slots : ∀ {i j mm mm' x x'}, s.mms i = some mm → s.mms j = some mm' →
    SwappedOut s mm.pgdir x → SwappedOut s mm'.pgdir x' →
    s.lookup mm.pgdir x >>> 8 = s.lookup mm'.pgdir x' >>> 8 →
    mm.pgdir = mm'.pgdir ∧ x = x'
  mapped : ∀ {i mm p}, s.mms i = some mm → OnQueue s mm p →
    frameOf (s.lookup mm.pgdir (slotOf (s.praVaddr p))) = some p

/-- No `mm_struct` lost a page of its queue, unless it was swapped out. -/
def QueuesKept (s t : State M) : Prop :=
  ∀ i mm p, s.mms i = some mm → OnQueue s mm p →
    OnQueue t mm p
      ∨ frameOf (t.lookup mm.pgdir (slotOf (s.praVaddr p))) = none

/-- There is no `mm_struct` but this one. -/
def Only (s : State M) (i : Nat) : Prop :=
  ∀ j mm, s.mms j = some mm → j = i

/-- An `mm_struct` is created while the queue is empty, a fault in an area
is served while there is no other `mm_struct`, and a page that is removed
is on no queue. -/
def Good (s : State M) : Op → Prop
  | .mmCreate _ _ => ∀ i mm p, s.mms i = some mm → ¬ OnQueue s mm p
  | .doPgfault mm addr => ∀ val, s.mms mm = some val →
      (findVma val.toMmStruct addr).1 ≠ none → Only s mm
  | .pageRemove pgdir la => ∀ p,
      frameOf (s.lookup pgdir (slotOf la)) = some p →
      ∀ i mm, s.mms i = some mm → ¬ OnQueue s mm p
  | _ => True

/-- Steps that meet the condition. -/
def GoodStep (sm : Manager) (s : State M) (op : Op) (t : State M) : Prop :=
  Good s op ∧ Step sm s op t

/-- Before the first `mm_create`: the page tables are empty, as
`check_boot_pgdir` asserts. -/
structure Start (s : State M) : Prop where
  bare : ∀ i, s.mms i = none
  empty : ∀ pgdir x, s.lookup pgdir x = 0
  free : ∀ p ∈ s.free, Managed p ∧ s.ref p = 0

-- ===================================================== the invariant

/-- The address spaces that share the queue: more than one only while it is
empty. -/
structure Owned (d : Nat) (q : List Nat) (s : State M) : Prop where
  nonempty : ∃ i mm, s.mms i = some mm
  priv : ∀ {i mm}, s.mms i = some mm → mm.smPriv = some .praListHead
  block : ∀ {i mm}, s.mms i = some mm → i ∉ s.free ∧ i ∉ q
  home : ∀ {i mm}, s.mms i = some mm → Only s i → mm.pgdir = d
  alone : q ≠ [] → ∃ i, Only s i

def Inv (s : State M) : Prop :=
  Start s ∨ ∃ d q, Paged d q s ∧ Owned d q s

theorem Owned.root (h : Owned d q s) (hi : s.mms i = some val)
    (hq : q ≠ []) : val.pgdir = d := by
  obtain ⟨j, hj⟩ := h.alone hq
  exact h.home hi (hj i val hi ▸ hj)

theorem Owned.ready (h : Owned d q s) : Ready d q s := by
  intro m hm
  obtain ⟨j, -, hj⟩ := Option.bind_eq_some_iff.1 hm
  exact ⟨h.priv hj, h.root hj⟩

theorem onQueue_iff (hs : Paged d q s) (h : Owned d q s)
    (hi : s.mms i = some val) {p : Nat} : OnQueue s val p ↔ p ∈ q := by
  constructor
  · intro hp
    obtain ⟨l, r, hpriv, hring, hp⟩ := hp
    rw [h.priv hi] at hpriv
    cases hpriv
    rwa [hs.queue.unique hring]
  · intro hp
    exact ⟨_, q, h.priv hi, hs.queue, hp⟩

theorem Owned.moves (h : Owned d q s) (hm : Moves d q s q' t n) :
    Owned d q' t := by
  have hmms := hm.mms_eq
  refine ⟨?_, ?_, ?_, ?_, ?_⟩
  · obtain ⟨i, mm, hi⟩ := h.nonempty
    exact ⟨i, mm, hmms ▸ hi⟩
  · intro i mm hi
    exact h.priv (hmms ▸ hi)
  · intro i mm hi
    have hout := h.block (hmms ▸ hi)
    exact hm.out hout.1 hout.2
  · intro i mm hi honly
    refine h.home (hmms ▸ hi) fun j mm' hj => ?_
    exact honly j mm' (hmms.symm ▸ hj)
  · intro hne
    obtain ⟨i, honly⟩ := h.alone fun heq => hne (by
      have hpre := hm.prefix_of
      rw [heq] at hpre
      exact List.prefix_nil.1 hpre)
    exact ⟨i, fun j mm hj => honly j mm (hmms ▸ hj)⟩

-- ========================================================= the steps

/-- A change of the cached area leaves the address spaces. -/
theorem Owned.cacheArea (h : Owned d q s) (hi : s.mms i = some val)
    (addr : Nat) : Owned d q (cacheArea i (val.found addr) s) := by
  have hback : ∀ {j mm}, (Swap.cacheArea i (val.found addr) s).mms j = some mm →
      ∃ mm', s.mms j = some mm' ∧ mm.smPriv = mm'.smPriv
        ∧ mm.pgdir = mm'.pgdir := by
    intro j mm hj
    by_cases hji : j = i
    · subst hji
      have heq : val.found addr = mm := by
        simpa [Swap.cacheArea] using hj
      rw [← heq, found_eq]
      exact ⟨val, hi, rfl, rfl⟩
    · exact ⟨mm, by simpa [Swap.cacheArea, hji] using hj, rfl, rfl⟩
  have hforth : ∀ {j mm}, s.mms j = some mm →
      ∃ mm', (Swap.cacheArea i (val.found addr) s).mms j = some mm' := by
    intro j mm hj
    by_cases hji : j = i
    · exact ⟨val.found addr, by simp [Swap.cacheArea, hji]⟩
    · exact ⟨mm, by simpa [Swap.cacheArea, hji] using hj⟩
  refine ⟨?_, ?_, ?_, ?_, ?_⟩
  · obtain ⟨mm, hmm⟩ := hforth hi
    exact ⟨i, mm, hmm⟩
  · intro j mm hj
    obtain ⟨mm', hj', hpriv, -⟩ := hback hj
    exact hpriv.trans (h.priv hj')
  · intro j mm hj
    obtain ⟨mm', hj', -, -⟩ := hback hj
    exact h.block hj'
  · intro j mm hj honly
    obtain ⟨mm', hj', -, hroot⟩ := hback hj
    refine hroot.trans (h.home hj' fun k mm'' hk => ?_)
    obtain ⟨mm₃, hk'⟩ := hforth hk
    exact honly k mm₃ hk'
  · intro hne
    obtain ⟨j, honly⟩ := h.alone hne
    refine ⟨j, fun k mm hk => ?_⟩
    obtain ⟨mm', hk', -⟩ := hback hk
    exact honly k mm' hk'

/-- A fault that was served leaves one address space. -/
theorem Owned.faulted {la perm : Nat} (h : Owned d q s) (honly : Only s i)
    (hf : Faulted d q s la perm q' t) : Owned d q' t := by
  have hmms := hf.mms_eq
  refine ⟨?_, ?_, ?_, ?_, ?_⟩
  · obtain ⟨j, mm, hj⟩ := h.nonempty
    exact ⟨j, mm, hmms ▸ hj⟩
  · intro j mm hj
    exact h.priv (hmms ▸ hj)
  · intro j mm hj
    have hout := h.block (hmms ▸ hj)
    exact not_or.mp fun hin => (hf.fresh hin).elim hout.1 hout.2
  · intro j mm hj honly'
    refine h.home (hmms ▸ hj) fun k mm' hk => ?_
    exact honly' k mm' (hmms.symm ▸ hk)
  · intro _
    exact ⟨i, fun j mm hj => honly j mm (hmms ▸ hj)⟩

theorem step_doPgfault {addr : Nat} {b : Bool} (h : Paged d q s)
    (ho : Owned d q s) (hgood : Good s (.doPgfault i addr))
    (hcall : doPgfault sm i addr s = some (b, t)) :
    ∃ q', Paged d q' t ∧ Owned d q' t := by
  obtain ⟨val, s₁, hderef, -⟩ := Call.bind_eq_some.1 hcall
  rw [derefMm_eq, Option.map_eq_some_iff] at hderef
  obtain ⟨m, hm, heq⟩ := hderef
  cases heq
  have hi : s.mms i = some val := hm
  have honly : Mm.candidate val.toMmStruct addr ≠ none → Only s i := by
    intro hne
    apply hgood val hi
    rw [Mm.findVma_eq]
    exact hne
  have hroot : Mm.candidate val.toMmStruct addr ≠ none → val.pgdir = d :=
    fun hne => ho.home hi (honly hne)
  rcases doPgfault_spec h ho.ready hi (ho.priv hi) hroot hcall with
    ⟨-, -, rfl⟩ | ⟨vma, q', hc, -, hfault⟩
  · exact ⟨q, cacheArea_paged h _, ho.cacheArea hi addr⟩
  · have honly' : Only (cacheArea i (val.found addr) s) i := by
      intro j mm hj
      by_contra hji
      have hj' : s.mms j = some mm := by
        simpa [cacheArea, hji] using hj
      exact hji (honly (hc ▸ (fun h => by cases h)) j mm hj')
    exact ⟨q', hfault.paged, (ho.cacheArea hi addr).faulted honly' hfault⟩

theorem step_swapIn {addr p : Nat} (h : Paged d q s) (ho : Owned d q s)
    (hcall : swapIn sm val addr s = some (p, t)) :
    ∃ q', Paged d q' t ∧ Owned d q' t := by
  obtain ⟨-, -, -, q', htaken⟩ := swapIn_taken h ho.ready hcall
  exact ⟨q', htaken.moves.paged, ho.moves htaken.moves⟩

/-- A page that is removed is on the queue, or there is none. -/
theorem pageRemove_eq {la pgdir : Nat} (hno : ¬ hasFlag
    (s.lookup pgdir (slotOf la)) pteV) : pageRemove pgdir la s = some ((), s) := by
  unfold pageRemove
  rw [Call.bind_of_eq _ (findPte_eq s pgdir la)]
  by_cases htable : s.HasTable pgdir (slotOf la)
  · rw [if_pos htable]
    rw [State.lookup_eq htable] at hno
    show pageRemovePte pgdir (slotOf la) s = _
    unfold pageRemovePte
    rw [Call.bind_of_eq _ rfl, if_neg hno]
    rfl
  · rw [if_neg htable]
    rfl

theorem step_pageRemove {la pgdir : Nat} (h : Paged d q s) (ho : Owned d q s)
    (hgood : Good s (.pageRemove pgdir la)) :
    pageRemove pgdir la s = some ((), s) := by
  apply pageRemove_eq
  intro hvalid
  obtain ⟨p, hp⟩ : ∃ p, frameOf (s.lookup pgdir (slotOf la)) = some p :=
    ⟨_, if_pos hvalid⟩
  have hne : s.lookup pgdir (slotOf la) ≠ 0 := by
    intro hzero
    rw [hzero, frameOf_zero] at hp
    cases hp
  have hd := h.root hne
  subst hd
  obtain ⟨i, mm, hi⟩ := ho.nonempty
  exact hgood p hp i mm hi ((onQueue_iff h ho hi).mpr (h.resident hp).1)

-- ========================================================= mm_create

/-- The state after `mm_create` filled its block. -/
def enterMm (i : Nat) (val : MmStruct) (s : State M) : State M :=
  let s := mapLinks (fun m => listInit m .praListHead) s
  { s with mms := Function.update s.mms i (some val) }

theorem mmCreate_eq {pgdir : Nat} {mmapList : List Vma}
    (hcall : mmCreate sm pgdir mmapList s = some (i, t)) :
    ∃ s₁ val, allocPage sm s = some (i, s₁) ∧ val.pgdir = pgdir
      ∧ val.smPriv = some .praListHead ∧ t = enterMm i val s₁ := by
  obtain ⟨page, s₁, halloc, hcall₁⟩ := Call.bind_eq_some.1 hcall
  obtain ⟨l, s₂, hinit, hcall₂⟩ := Call.bind_eq_some.1 hcall₁
  obtain ⟨⟨⟩, s₃, hlinks, hret⟩ := Call.bind_eq_some.1 hinit
  obtain rfl := Call.modify_eq_some.1 hlinks
  obtain ⟨rfl, rfl⟩ := Call.pure_eq_some.1 hret
  obtain ⟨⟨⟩, s₄, hset, hret'⟩ := Call.bind_eq_some.1 hcall₂
  obtain rfl := Call.modify_eq_some.1 hset
  obtain ⟨rfl, rfl⟩ := Call.pure_eq_some.1 hret'
  exact ⟨s₁, _, halloc, rfl, rfl, rfl⟩

theorem enterMm_paged (h : Paged d [] s) : Paged d [] (enterMm i val s) := by
  refine ⟨queue_init s.links, h.root, ?_, ?_, ?_, h.managed, h.cleared⟩
  · intro x hx
    rcases h.entry hx with hswap | ⟨p, hp, -⟩
    · exact .inl hswap
    · cases hp
  · intro p hp
    cases hp
  · intro p hp
    cases hp

/-- A second address space joins while the queue is empty. -/
theorem Owned.enterMm (h : Owned d [] s) (hfree : i ∉ s.free)
    (hnew : s.mms i = none) (hpriv : val.smPriv = some .praListHead) :
    Owned d [] (enterMm i val s) := by
  have hold : ∀ {j mm}, s.mms j = some mm →
      (Swap.enterMm i val s).mms j = some mm := by
    intro j mm hj
    have hji : j ≠ i := by
      intro heq
      rw [heq, hnew] at hj
      cases hj
    show Function.update s.mms i (some val) j = _
    rw [Function.update_of_ne hji, hj]
  have hself : (Swap.enterMm i val s).mms i = some val :=
    Function.update_self _ _ _
  have hback : ∀ {j mm}, (Swap.enterMm i val s).mms j = some mm →
      (j = i ∧ mm = val) ∨ s.mms j = some mm := by
    intro j mm hj
    by_cases hji : j = i
    · subst hji
      rw [hself] at hj
      exact .inl ⟨rfl, (Option.some.inj hj).symm⟩
    · have hj' : Function.update s.mms i (some val) j = some mm := hj
      rw [Function.update_of_ne hji] at hj'
      exact .inr hj'
  refine ⟨⟨i, val, hself⟩, ?_, ?_, ?_, fun hne => absurd rfl hne⟩
  · intro j mm hj
    rcases hback hj with ⟨-, rfl⟩ | hj
    · exact hpriv
    · exact h.priv hj
  · intro j mm hj
    refine ⟨?_, List.not_mem_nil⟩
    rcases hback hj with ⟨rfl, -⟩ | hj
    · exact hfree
    · exact (h.block hj).1
  · intro j mm hj honly
    obtain ⟨k, mm', hk⟩ := h.nonempty
    have hki : k = i := (honly k mm' (hold hk)).trans (honly i val hself).symm
    rw [hki, hnew] at hk
    cases hk

theorem step_mmCreate {pgdir : Nat} {mmapList : List Vma}
    (h : Paged d [] s) (ho : Owned d [] s)
    (hcall : mmCreate sm pgdir mmapList s = some (i, t)) :
    Paged d [] t ∧ Owned d [] t := by
  obtain ⟨s₁, val, halloc, -, hpriv, rfl⟩ := mmCreate_eq hcall
  obtain ⟨q', htaken⟩ := allocPage_spec h ho.ready halloc
  obtain rfl := List.prefix_nil.1 htaken.moves.prefix_of
  have ho₁ := ho.moves htaken.moves
  have hnew : s₁.mms i = none := by
    cases hi : s₁.mms i with
    | none => rfl
    | some mm =>
        rw [htaken.moves.mms_eq] at hi
        have hblock := ho.block hi
        exact absurd htaken.origin (not_or.mpr hblock)
  exact ⟨enterMm_paged htaken.moves.paged,
    ho₁.enterMm htaken.hand.notFree hnew hpriv⟩

-- =========================================== the first address space

theorem Start.derefMm (h : Start s) (m : Option Nat) :
    derefMm m s = none := by
  rw [derefMm_eq]
  cases m with
  | none => rfl
  | some i =>
      rw [Option.bind_some, h.bare]
      rfl

/-- Nothing can be evicted yet, so an allocation takes a free page. -/
theorem Start.allocPage {p : Nat} (h : Start s)
    (hcall : allocPage sm s = some (p, t)) :
    ∃ pmm, M.allocPages s.pmm = some (p, pmm)
      ∧ t = { s with pmm := pmm } := by
  unfold Swap.allocPage at hcall
  cases halloc : M.allocPages s.pmm with
  | some r =>
      obtain ⟨p', pmm⟩ := r
      rw [allocLoop_found 1 halloc] at hcall
      cases hcall
      exact ⟨pmm, rfl, rfl⟩
  | none =>
      rw [allocLoop_full 1 halloc,
        Call.bind_of_none _ (h.derefMm s.checkMm)] at hcall
      cases hcall

theorem Start.mmCreate {pgdir : Nat} {mmapList : List Vma} (h : Start s)
    (hcall : mmCreate sm pgdir mmapList s = some (i, t)) :
    Paged pgdir [] t ∧ Owned pgdir [] t ∧ Only t i := by
  obtain ⟨s₁, val, halloc, hroot, hpriv, rfl⟩ := mmCreate_eq hcall
  obtain ⟨pmm, hpmm, rfl⟩ := h.allocPage halloc
  obtain ⟨hin, hfree⟩ := M.allocPages_spec s.pmm i pmm hpmm
  have hsub : ∀ {f}, f ∈ M.freeSet pmm → f ∈ s.free := by
    intro f hf
    rw [hfree] at hf
    exact Finset.mem_of_mem_erase hf
  have hempty : ∀ {pgdir x},
      (enterMm i val { s with pmm := pmm }).lookup pgdir x ≠ 0 → False :=
    fun hx => hx (h.empty _ _)
  have honly : ∀ {j mm},
      (enterMm i val { s with pmm := pmm }).mms j = some mm →
      j = i ∧ mm = val := by
    intro j mm hj
    have hj' : Function.update s.mms i (some val) j = some mm := hj
    by_cases hji : j = i
    · subst hji
      rw [Function.update_self] at hj'
      exact ⟨rfl, (Option.some.inj hj').symm⟩
    · rw [Function.update_of_ne hji, h.bare] at hj'
      cases hj'
  constructor
  · refine ⟨queue_init s.links, fun hx => (hempty hx).elim,
      fun hx => (hempty hx).elim, ?_, ?_, ?_, ?_⟩
    · intro p hp
      cases hp
    · intro p hp
      cases hp
    · intro p hp
      rcases hp with hp | hp
      · exact (h.free p (hsub hp)).1
      · cases hp
    · intro p hp
      exact (h.free p (hsub hp)).2
  · refine ⟨⟨⟨i, val, Function.update_self _ _ _⟩, ?_, ?_, ?_,
      fun hne => absurd rfl hne⟩, fun j mm hj => (honly hj).1⟩
    · intro j mm hj
      rw [(honly hj).2]
      exact hpriv
    · intro j mm hj
      refine ⟨?_, List.not_mem_nil⟩
      rw [(honly hj).1]
      show i ∉ M.freeSet pmm
      rw [hfree]
      exact Finset.notMem_erase i _
    · intro j mm hj _
      rw [(honly hj).2]
      exact hroot

theorem Start.step {op : Op} (h : Start s) (hstep : Step sm s op t) :
    Inv t := by
  cases op with
  | mmCreate pgdir mmapList =>
      obtain ⟨i, s₁, hcall, hret⟩ := Call.bind_eq_some.1 hstep
      obtain ⟨-, rfl⟩ := Call.pure_eq_some.1 hret
      have hfirst := h.mmCreate hcall
      exact .inr ⟨pgdir, [], hfirst.1, hfirst.2.1⟩
  | checkMm m =>
      have hcall : Call.modify (fun s : State M => { s with checkMm := m }) s
          = some ((), t) := hstep
      obtain rfl := Call.modify_eq_some.1 hcall
      exact .inl ⟨h.bare, h.empty, h.free⟩
  | doPgfault mm addr =>
      obtain ⟨b, s₁, hcall, -⟩ := Call.bind_eq_some.1 hstep
      obtain ⟨val, s₂, hderef, -⟩ := Call.bind_eq_some.1 hcall
      rw [h.derefMm] at hderef
      cases hderef
  | swapOut mm n =>
      obtain ⟨val, s₁, hderef, -⟩ := Call.bind_eq_some.1 hstep
      rw [h.derefMm] at hderef
      cases hderef
  | swapIn mm addr =>
      obtain ⟨val, s₁, hderef, -⟩ := Call.bind_eq_some.1 hstep
      rw [h.derefMm] at hderef
      cases hderef
  | pageRemove pgdir la =>
      have hno : ¬ hasFlag (s.lookup pgdir (slotOf la)) pteV := by
        rw [h.empty]
        exact hasFlag_zero pteV
      have hsame : pageRemove pgdir la s = some ((), t) := hstep
      rw [pageRemove_eq hno, Option.some.injEq, Prod.mk.injEq] at hsame
      exact .inl (hsame.2 ▸ h)

-- ============================================================== runs

/-- What a step that meets the condition preserves. -/
theorem Inv.step {op : Op} (h : Inv s) (hstep : GoodStep sm s op t) :
    Inv t := by
  obtain ⟨hgood, hstep⟩ := hstep
  rcases h with h | ⟨d, q, h, ho⟩
  · exact h.step hstep
  cases op with
  | mmCreate pgdir mmapList =>
      obtain ⟨i, s₁, hcall, hret⟩ := Call.bind_eq_some.1 hstep
      obtain ⟨-, rfl⟩ := Call.pure_eq_some.1 hret
      have hq : q = [] := by
        obtain ⟨j, mm, hj⟩ := ho.nonempty
        refine List.eq_nil_iff_forall_not_mem.mpr fun p hp => ?_
        exact hgood j mm p hj ((onQueue_iff h ho hj).mpr hp)
      subst hq
      exact .inr ⟨d, [], step_mmCreate h ho hcall⟩
  | checkMm m =>
      have hcall : Call.modify (fun s : State M => { s with checkMm := m }) s
          = some ((), t) := hstep
      obtain rfl := Call.modify_eq_some.1 hcall
      exact .inr ⟨d, q,
        ⟨h.queue, h.root, h.entry, h.mapped, h.held, h.managed, h.cleared⟩,
        ⟨ho.nonempty, ho.priv, ho.block, ho.home, ho.alone⟩⟩
  | doPgfault mm addr =>
      obtain ⟨b, s₁, hcall, hret⟩ := Call.bind_eq_some.1 hstep
      obtain ⟨-, rfl⟩ := Call.pure_eq_some.1 hret
      exact .inr ⟨d, step_doPgfault h ho hgood hcall⟩
  | swapOut mm n =>
      obtain ⟨val, s₁, hderef, hcall⟩ := Call.bind_eq_some.1 hstep
      rw [derefMm_eq, Option.map_eq_some_iff] at hderef
      obtain ⟨m, hm, heq⟩ := hderef
      cases heq
      obtain ⟨q', hmoves⟩ := swapOut_moves h (ho.priv hm) (ho.root hm) hcall
      exact .inr ⟨d, q', hmoves.paged, ho.moves hmoves⟩
  | swapIn mm addr =>
      obtain ⟨val, s₁, hderef, hcall⟩ := Call.bind_eq_some.1 hstep
      rw [derefMm_eq, Option.map_eq_some_iff] at hderef
      obtain ⟨m, hm, heq⟩ := hderef
      cases heq
      obtain ⟨p, s₂, hin, hret⟩ := Call.bind_eq_some.1 hcall
      obtain ⟨-, rfl⟩ := Call.pure_eq_some.1 hret
      exact .inr ⟨d, step_swapIn h ho hin⟩
  | pageRemove pgdir la =>
      have hcall : pageRemove pgdir la s = some ((), t) := hstep
      rw [step_pageRemove h ho hgood, Option.some.injEq, Prod.mk.injEq]
        at hcall
      exact .inr ⟨d, q, hcall.2 ▸ h, hcall.2 ▸ ho⟩

/-- The invariant gives the property. -/
theorem Inv.separate (h : Inv s) : Separate s := by
  rcases h with h | ⟨d, q, h, ho⟩
  · refine ⟨?_, ?_⟩
    · intro i j mm mm' x x' hi
      rw [h.bare] at hi
      cases hi
    · intro i mm p hi
      rw [h.bare] at hi
      cases hi
  · have hswap : ∀ {pgdir x}, SwappedOut s pgdir x →
        pgdir = d ∧ InSwap (s.lookup d x) x := by
      intro pgdir x hx
      have hd := h.root hx.1
      subst hd
      rcases h.entry hx.1 with hin | ⟨p, -, hframe, -⟩
      · exact ⟨rfl, hin⟩
      · rw [hx.2] at hframe
        cases hframe
    refine ⟨?_, ?_⟩
    · intro i j mm mm' x x' _ _ hx hx' heq
      obtain ⟨hd, hin⟩ := hswap hx
      obtain ⟨hd', hin'⟩ := hswap hx'
      rw [hd, hd'] at heq
      exact ⟨hd.trans hd'.symm, h.swapped_inj hin hin' heq⟩
    · intro i mm p hi hp
      have hq := (onQueue_iff h ho hi).mp hp
      rw [ho.root hi (List.ne_nil_of_mem hq)]
      exact h.mapped hq

/-- In every run whose steps meet the condition, pages that are swapped out
have slots of their own, every page on a queue is mapped at its `pra_vaddr`,
and no creation of an `mm_struct` loses a queue. -/
theorem swap_separate {ops : List Op} (hstart : Start s)
    (hrun : Run (GoodStep sm) s ops t) :
    Separate t ∧ ∀ pgdir mmapList u,
      GoodStep sm t (.mmCreate pgdir mmapList) u → QueuesKept t u := by
  have hinv : Inv t := hrun.invariant Inv.step (.inl hstart)
  refine ⟨hinv.separate, ?_⟩
  intro pgdir mmapList u hstep i mm p hi hp
  exact absurd hp (hstep.1 i mm p hi)

-- ========================================================== two runs

/-- Eight free pages and no `mm_struct`. -/
def booted : State Mm.lowestFirst where
  pmm := (List.range 8).map (0x80301 + ·)
  ref := fun _ => 0
  praVaddr := fun _ => 0
  links := ⟨fun _ => .praListHead, fun _ => .praListHead⟩
  mem := fun _ _ => 0
  disk := fun _ _ => 0
  dirs := fun _ _ => none
  tables := fun _ _ _ => none
  pte := fun _ _ => 0
  mms := fun _ => none
  checkMm := none

theorem booted_start : Start booted := by
  refine ⟨fun _ => rfl, fun pgdir x => if_neg fun h => ?_, ?_⟩
  · exact Bool.noConfusion h.1
  · intro p hp
    have hfree : booted.free = ((List.range 8).map (0x80301 + ·)).toFinset :=
      rfl
    rw [hfree] at hp
    simp only [List.mem_toFinset, List.mem_map, List.mem_range] at hp
    obtain ⟨i, hi, rfl⟩ := hp
    refine ⟨?_, rfl⟩
    unfold Managed nbase npage
    omega

/-- The area of `check_swap`. -/
def checkArea : Vma := ⟨0x1000, 0x6000, Mm.vmRead ||| Mm.vmWrite⟩

/-- One address space: a page is mapped, and swapped out. -/
def alone : List Op :=
  [.mmCreate 1 [checkArea], .checkMm (some 0x80301),
    .doPgfault 0x80301 0x1000, .swapOut 0x80301 1]

/-- A second one joins, and its page at the same address follows. -/
def overlapping : List Op :=
  alone ++ [.mmCreate 2 [checkArea], .checkMm (some 0x80304),
    .doPgfault 0x80304 0x1000, .swapOut 0x80304 1]

/-- The entries of the two pages after a run. -/
def entries (s : State Mm.lowestFirst) : Nat × Nat :=
  (s.lookup 1 (slotOf 0x1000), s.lookup 2 (slotOf 0x1000))

/-- The root directories of the two `mm_struct`s. -/
def roots (s : State Mm.lowestFirst) : Option Nat × Option Nat :=
  ((s.mms 0x80301).map (·.pgdir), (s.mms 0x80304).map (·.pgdir))

/-- Both pages are written to one slot of the device. -/
theorem slots_collide : ∃ t, Start booted
    ∧ Run (Step .lru) booted overlapping t ∧ ¬ Separate t := by
  obtain ⟨t, hrun⟩ : ∃ t, execAll .lru overlapping booted = some ((), t) :=
    ⟨_, rfl⟩
  have hentries : ((execAll .lru overlapping booted).map fun r => entries r.2)
      = some (512, 512) := by
    decide +kernel
  have hroots : ((execAll .lru overlapping booted).map fun r => roots r.2)
      = some (some 1, some 2) := by
    decide +kernel
  rw [hrun, Option.map_some, Option.some.injEq] at hentries hroots
  obtain ⟨h1, h2⟩ := Prod.mk.inj hentries
  obtain ⟨hr1, hr2⟩ := Prod.mk.inj hroots
  obtain ⟨mm, hmm, hd⟩ := Option.map_eq_some_iff.1 hr1
  obtain ⟨mm', hmm', hd'⟩ := Option.map_eq_some_iff.1 hr2
  refine ⟨t, booted_start, run_of_execAll hrun, fun hsep => ?_⟩
  have hout : SwappedOut t mm.pgdir (slotOf 0x1000) := by
    rw [hd]
    exact ⟨by rw [h1]; decide, by rw [h1]; decide⟩
  have hout' : SwappedOut t mm'.pgdir (slotOf 0x1000) := by
    rw [hd']
    exact ⟨by rw [h2]; decide, by rw [h2]; decide⟩
  have hsame := hsep.slots hmm hmm' hout hout' (by rw [hd, hd', h1, h2])
  rw [hd, hd'] at hsame
  exact absurd hsame.1 (by decide)

/-- One address space alone meets the condition. -/
theorem swap_separate_alone : ∃ t, Run (GoodStep .lru) booted alone t
    ∧ entries t = (512, 0) ∧ Separate t := by
  obtain ⟨t, hrun⟩ : ∃ t, execAll .lru alone booted = some ((), t) :=
    ⟨_, rfl⟩
  have hentries : ((execAll .lru alone booted).map fun r => entries r.2)
      = some (512, 0) := by
    decide +kernel
  rw [hrun, Option.map_some, Option.some.injEq] at hentries
  obtain ⟨⟨⟩, s₁, hcreate, hrest⟩ := Call.bind_eq_some.1 hrun
  obtain ⟨⟨⟩, s₂, hcheck, hrest₂⟩ := Call.bind_eq_some.1 hrest
  obtain ⟨⟨⟩, s₃, hfault, hrest₃⟩ := Call.bind_eq_some.1 hrest₂
  obtain ⟨⟨⟩, s₄, hout, hrest₄⟩ := Call.bind_eq_some.1 hrest₃
  obtain ⟨-, rfl⟩ := Call.pure_eq_some.1 hrest₄
  have honly : Only s₂ 0x80301 := by
    obtain ⟨i, s₅, hcall, hret⟩ := Call.bind_eq_some.1 hcreate
    obtain ⟨-, rfl⟩ := Call.pure_eq_some.1 hret
    have hpage : (mmCreate .lru 1 [checkArea] booted).map Prod.fst
        = some 0x80301 := by
      decide +kernel
    rw [hcall, Option.map_some, Option.some.injEq] at hpage
    obtain rfl := hpage
    obtain ⟨-, -, honly⟩ := booted_start.mmCreate hcall
    have hset : Call.modify (fun s : State Mm.lowestFirst =>
        { s with checkMm := some 0x80301 }) s₁ = some ((), s₂) := hcheck
    obtain rfl := Call.modify_eq_some.1 hset
    exact honly
  have hgood : Run (GoodStep .lru) booted alone t := by
    refine .cons ⟨?_, hcreate⟩ (.cons ⟨trivial, hcheck⟩
      (.cons ⟨?_, hfault⟩ (.cons ⟨trivial, hout⟩ (.nil t))))
    · intro i mm p hi
      cases hi
    · intro _ _ _
      exact honly
  exact ⟨t, hgood, hentries, (swap_separate booted_start hgood).1⟩

end Ucore.Swap
