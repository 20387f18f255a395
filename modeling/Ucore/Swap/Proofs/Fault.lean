/-
Page faults: a page in hand is mapped and queued, `swap_in` fills a page
from the device, and `do_pgfault` does the one or the other.
-/
import Ucore.Swap.Vmm
import Ucore.Swap.Proofs.Alloc
import Ucore.Mm.Proofs.Vmm

namespace Ucore.Swap

open Mm (Managed findVma)

variable {M : PmmManager} {s t u : State M} {d n k : Nat} {x : Slot}
  {q q' : List Nat} {p la addr perm : Nat} {sm : Manager} {mm : MmStruct}

-- ==================================================== mapping a page

/-- The state after `page_insert` entered a page. -/
def insertAt (d p la perm : Nat) (s : State M) : State M :=
  setPte d (slotOf la) (pteCreate p (pteV ||| perm))
    (setPageRef p (s.ref p + 1) s)

/-- The state after the page was queued as well. -/
def mapIn (d p la perm : Nat) (s : State M) : State M :=
  setPraVaddr p la
    (mapLinks (fun m => listAdd m .praListHead (.page p))
      (insertAt d p la perm s))

theorem pteV_or_lt (hperm : perm < 2 ^ 10) : pteV ||| perm < 2 ^ 10 :=
  Nat.or_lt_two_pow (by decide) hperm

theorem mapIn_lookup (h : s.HasTable d (slotOf la)) (d' : Nat) (x : Slot) :
    (mapIn d p la perm s).lookup d' x
      = if d' = d ∧ x = slotOf la then pteCreate p (pteV ||| perm)
        else s.lookup d' x :=
  lookup_setPte (s := setPageRef p (s.ref p + 1) s) h d' x

theorem mapIn_ref (f : Nat) : (mapIn d p la perm s).ref f
    = if f = p then s.ref p + 1 else s.ref f :=
  Function.update_apply _ _ _ _

theorem mapIn_vaddr (f : Nat) : (mapIn d p la perm s).praVaddr f
    = if f = p then la else s.praVaddr f :=
  Function.update_apply _ _ _ _

/-- Mapping a page in hand where no page was. -/
theorem Paged.mapIn (h : Paged d q s) (hp : InHand q s p)
    (htable : s.HasTable d (slotOf la))
    (hempty : frameOf (s.lookup d (slotOf la)) = none)
    (hperm : perm < 2 ^ 10) : Paged d (p :: q) (mapIn d p la perm s) := by
  have hlookup : ∀ d' x, (Swap.mapIn d p la perm s).lookup d' x
      = if d' = d ∧ x = slotOf la then pteCreate p (pteV ||| perm)
        else s.lookup d' x := mapIn_lookup htable
  have hframe : frameOf (pteCreate p (pteV ||| perm)) = some p :=
    frameOf_pteCreate hp.managed.lt (pteV_or_lt hperm)
  have hne : ∀ {f}, f ∈ q → f ≠ p := fun hf heq => hp.notQueued (heq ▸ hf)
  have hother : ∀ {f}, f ∈ q → slotOf (s.praVaddr f) ≠ slotOf la := by
    intro f hf heq
    have hmap := h.mapped hf
    rw [heq, hempty] at hmap
    cases hmap
  refine ⟨h.queue.add hp.notQueued, ?_, ?_, ?_, ?_, ?_, ?_⟩
  · intro d' x hx
    rw [hlookup] at hx
    by_cases hslot : d' = d ∧ x = slotOf la
    · exact hslot.1
    · rw [if_neg hslot] at hx
      exact h.root hx
  · intro x hx
    rw [hlookup] at hx ⊢
    by_cases hslot : x = slotOf la
    · rw [if_pos ⟨rfl, hslot⟩]
      refine .inr ⟨p, List.mem_cons_self, hframe, ?_⟩
      rw [mapIn_vaddr, if_pos rfl, hslot]
    · have hno : ¬ (d = d ∧ x = slotOf la) := fun heq => hslot heq.2
      rw [if_neg hno] at hx ⊢
      rcases h.entry hx with hswap | ⟨f, hf, hframe', hfslot⟩
      · exact .inl hswap
      · refine .inr ⟨f, List.mem_cons_of_mem p hf, hframe', ?_⟩
        rw [mapIn_vaddr, if_neg (hne hf)]
        exact hfslot
  · intro f hf
    rw [hlookup, mapIn_vaddr]
    rcases List.mem_cons.1 hf with rfl | hf
    · rw [if_pos rfl, if_pos ⟨rfl, rfl⟩]
      exact hframe
    · rw [if_neg (hne hf), if_neg fun heq => hother hf heq.2]
      exact h.mapped hf
  · intro f hf
    rcases List.mem_cons.1 hf with rfl | hf
    · exact hp.notFree
    · exact h.held hf
  · intro f hf
    rcases hf with hf | hf
    · exact h.managed (.inl hf)
    · rcases List.mem_cons.1 hf with rfl | hf
      · exact hp.managed
      · exact h.managed (.inr hf)
  · intro f hf
    rw [mapIn_ref, if_neg]
    · exact h.cleared hf
    · intro heq
      exact hp.notFree (heq ▸ hf)

/-- Mapping a page leaves the contents elsewhere. -/
theorem mapIn_content (h : Paged d q s) (htable : s.HasTable d (slotOf la))
    (hperm : perm < 2 ^ 10) (hp : Managed p) (x : Slot) :
    (mapIn d p la perm s).content d x
      = if x = slotOf la then some (s.mem p) else s.content d x := by
  have hlookup : (mapIn d p la perm s).lookup d x
      = if d = d ∧ x = slotOf la then pteCreate p (pteV ||| perm)
        else s.lookup d x := mapIn_lookup htable d x
  unfold State.content
  by_cases hslot : x = slotOf la
  · rw [if_pos ⟨rfl, hslot⟩] at hlookup
    have hframe : frameOf (pteCreate p (pteV ||| perm)) = some p :=
      frameOf_pteCreate hp.lt (pteV_or_lt hperm)
    have hne : pteCreate p (pteV ||| perm) ≠ 0 := by
      intro hzero
      rw [hzero, frameOf_zero] at hframe
      cases hframe
    rw [hlookup, if_neg hne, hframe, if_pos hslot]
    rfl
  · rw [if_neg fun heq => hslot heq.2] at hlookup
    rw [hlookup, if_neg hslot]
    rfl

/-- `page_insert` of a page in hand where no page is mapped. -/
theorem pageInsert_spec (h : Paged d q s) (hr : Ready d q s)
    (hempty : frameOf (s.lookup d (slotOf la)) = none)
    (hcall : pageInsert sm d p la perm s = some ((), t)) :
    ∃ q₁ s₁, Moves d q s q₁ s₁ (missing s d la)
      ∧ s₁.HasTable d (slotOf la) ∧ t = insertAt d p la perm s₁ := by
  obtain ⟨o, s₁, hget, hcall₁⟩ := Call.bind_eq_some.1 hcall
  obtain ⟨rfl, htable, q₁, hmoves⟩ := getPte_spec h hr hget
  obtain ⟨x, s₂, hsome, hcall₂⟩ := Call.bind_eq_some.1 hcall₁
  obtain ⟨hx, rfl⟩ := Call.ofOption_eq_some.1 hsome
  cases hx
  obtain ⟨s₃, s₄, hread, hcall₃⟩ := Call.bind_eq_some.1 hcall₂
  obtain ⟨rfl, rfl⟩ := Call.get_eq_some.1 hread
  obtain ⟨⟨⟩, s₅, hinc, hcall₄⟩ := Call.bind_eq_some.1 hcall₃
  obtain rfl := Call.modify_eq_some.1 hinc
  obtain ⟨⟨⟩, s₆, hreplace, hset⟩ := Call.bind_eq_some.1 hcall₄
  obtain rfl := Call.modify_eq_some.1 hset
  refine ⟨q₁, s₄, hmoves, htable, ?_⟩
  have hno : ¬ hasFlag (s₄.pte d (slotOf la)) pteV := by
    rw [← State.lookup_eq htable, ← frameOf_eq_none_iff, hmoves.still hempty]
    exact hempty
  obtain ⟨s₇, s₈, hread', hbody⟩ := Call.bind_eq_some.1 hreplace
  obtain ⟨rfl, rfl⟩ := Call.get_eq_some.1 hread'
  have hno' : ¬ hasFlag ((setPageRef p (s₄.ref p + 1) s₄).pte d (slotOf la))
      pteV := hno
  rw [if_neg hno'] at hbody
  obtain ⟨-, rfl⟩ := Call.pure_eq_some.1 hbody
  rfl

-- ======================================================== do_pgfault

/-- What a page fault at a page that is not mapped has done: evictions, page
tables, and a page that is mapped, queued and holds what the device held. -/
structure Faulted (d : Nat) (q : List Nat) (s : State M) (la perm : Nat)
    (q' : List Nat) (t : State M) : Prop where
  paged : Paged d q' t
  ne_nil : q' ≠ []
  content : ∀ {x}, s.lookup d x ≠ 0 → t.content d x = s.content d x
  entry : ∃ p, t.lookup d (slotOf la) = pteCreate p (pteV ||| perm)
    ∧ Managed p
  valid : ∀ {x}, x ≠ slotOf la → frameOf (t.lookup d x) ≠ none →
    t.lookup d x = s.lookup d x
  vaddr : ∀ {f}, f ∈ q' →
    t.praVaddr f = la ∨ f ∈ q ∧ t.praVaddr f = s.praVaddr f
  mms_eq : t.mms = s.mms
  checkMm_eq : t.checkMm = s.checkMm
  hasTable : ∀ {x}, s.HasTable d x → t.HasTable d x
  fresh : ∀ {f}, f ∈ t.free ∨ f ∈ q' → f ∈ s.free ∨ f ∈ q
  count : t.free.card + q'.length + missing s d la = s.free.card + q.length

/-- A page in hand, whose contents are those of the slot, is mapped. -/
theorem Moves.faulted (h : Moves d q s q' t n) (hp : InHand q' t p)
    (horig : p ∈ s.free ∨ p ∈ q) (htable : t.HasTable d (slotOf la))
    (hempty : frameOf (t.lookup d (slotOf la)) = none)
    (hperm : perm < 2 ^ 10) (hcount : n = missing s d la + 1)
    (hcontent : s.lookup d (slotOf la) ≠ 0 →
      t.content d (slotOf la) = some (t.mem p)) :
    Faulted d q s la perm (p :: q') (mapIn d p la perm t) := by
  have hkept := mapIn_content h.paged htable hperm hp.managed
  refine
    { paged := h.paged.mapIn hp htable hempty hperm
      ne_nil := List.cons_ne_nil p q'
      content := ?_
      entry := ⟨p, ?_, hp.managed⟩
      valid := ?_, vaddr := ?_
      mms_eq := h.mms_eq, checkMm_eq := h.checkMm_eq
      hasTable := fun hx => h.hasTable hx
      fresh := ?_, count := ?_ }
  · intro x hx
    rw [hkept x]
    by_cases hslot : x = slotOf la
    · rw [if_pos hslot, ← hcontent (hslot ▸ hx), hslot, h.content (hslot ▸ hx)]
    · rw [if_neg hslot, h.content hx]
  · rw [mapIn_lookup htable, if_pos ⟨rfl, rfl⟩]
  · intro x hslot hx
    rw [mapIn_lookup htable, if_neg fun heq => hslot heq.2] at hx ⊢
    exact h.valid hx
  · intro f hf
    rw [mapIn_vaddr]
    by_cases hfp : f = p
    · exact .inl (if_pos hfp)
    · rw [if_neg hfp, h.vaddr_eq]
      rcases List.mem_cons.1 hf with hf | hf
      · exact absurd hf hfp
      · exact .inr ⟨h.prefix_of.subset hf, rfl⟩
  · intro f hf
    rcases hf with hf | hf
    · exact h.fresh (.inl hf)
    · rcases List.mem_cons.1 hf with rfl | hf
      · exact horig
      · exact h.fresh (.inr hf)
  · have hfree : (mapIn d p la perm t).free = t.free := rfl
    have := h.count
    rw [hfree, List.length_cons]
    omega

/-- Page tables that are there stay. -/
theorem missing_of_moves (la : Nat) (h : Moves d q s q' t n)
    (hdirs : t.dirs = s.dirs) (htables : t.tables = s.tables) :
    missing t d la = missing s d la := by
  unfold missing
  rw [hdirs, htables]

/-- `pgdir_alloc_page` at a page without an entry. -/
theorem pgdirAllocPage_spec (h : Paged d q s) (hr : Ready d q s)
    (hempty : s.lookup d (slotOf la) = 0) (hperm : perm < 2 ^ 10)
    (hcall : pgdirAllocPage sm d la perm s = some (p, t)) :
    ∃ q', Faulted d q s la perm q' t := by
  obtain ⟨page, s₁, halloc, hcall₁⟩ := Call.bind_eq_some.1 hcall
  obtain ⟨q₁, htaken⟩ := allocPage_spec h hr halloc
  have hzero : frameOf (s.lookup d (slotOf la)) = none := by
    rw [hempty, frameOf_zero]
  have hzero₁ : frameOf (s₁.lookup d (slotOf la)) = none := by
    rw [htaken.moves.still hzero]
    exact hzero
  obtain ⟨⟨⟩, s₂, hinsert, hcall₂⟩ := Call.bind_eq_some.1 hcall₁
  obtain ⟨q₂, s₃, hmoves, htable, rfl⟩ :=
    pageInsert_spec htaken.moves.paged (htaken.moves.ready hr) hzero₁ hinsert
  have hall := htaken.moves.trans hmoves
  have hhand := hmoves.inHand htaken.hand
  obtain ⟨s₄, s₅, hread, hcall₃⟩ := Call.bind_eq_some.1 hcall₂
  obtain ⟨rfl, rfl⟩ := Call.get_eq_some.1 hread
  obtain ⟨mm, s₆, hderef, hcall₄⟩ := Call.bind_eq_some.1 hcall₃
  rw [derefMm_eq, Option.map_eq_some_iff] at hderef
  obtain ⟨m, hm, heq⟩ := hderef
  cases heq
  have hpriv : mm.smPriv = some .praListHead := (hall.ready hr mm hm).1
  obtain ⟨⟨⟩, s₇, hmap, hcall₅⟩ := Call.bind_eq_some.1 hcall₄
  have hqueue : Queue (insertAt d page la perm s₃).links q₂ :=
    hall.paged.queue
  rw [mapSwappable_eq _ hqueue hpriv hhand.notQueued hall.paged.length_le,
    Option.some.injEq, Prod.mk.injEq] at hmap
  obtain rfl := hmap.2
  obtain ⟨⟨⟩, s₈, hset, hcall₆⟩ := Call.bind_eq_some.1 hcall₅
  obtain rfl := Call.modify_eq_some.1 hset
  obtain ⟨s₉, s₁₀, hread', hcall₇⟩ := Call.bind_eq_some.1 hcall₆
  obtain ⟨rfl, rfl⟩ := Call.get_eq_some.1 hread'
  obtain ⟨⟨⟩, s₁₁, hassert, hret⟩ := Call.bind_eq_some.1 hcall₇
  obtain ⟨-, rfl⟩ := Call.assert_eq_some.1 hassert
  obtain ⟨rfl, rfl⟩ := Call.pure_eq_some.1 hret
  have hmissing := missing_of_moves la htaken.moves htaken.dirs
    htaken.tables
  refine ⟨p :: q₂, hall.faulted hhand htaken.origin htable ?_ hperm
    ?_ ?_⟩
  · rw [hmoves.still hzero₁]
    exact hzero₁
  · rw [hmissing, Nat.add_comm]
  · intro hne
    exact absurd hempty hne

/-- The state after a page was read from a slot of the device. -/
def readIn (p offset : Nat) (s : State M) : State M :=
  { s with mem := Function.update s.mem p (s.disk offset) }

/-- `swap_in` takes a page and reads into it what a slot of the device
holds; the entry is a swap entry of this address space by then. -/
theorem swapIn_spec (h : Paged d q s) (hr : Ready d q s)
    (hcall : swapIn sm mm la s = some (p, t)) :
    mm.pgdir = d ∧ ∃ q' s₁, Taken d q s p q' s₁
      ∧ s₁.HasTable d (slotOf la)
      ∧ s₁.lookup d (slotOf la) ≠ 0
      ∧ frameOf (s₁.lookup d (slotOf la)) = none
      ∧ t = readIn p (s₁.lookup d (slotOf la) >>> 8) s₁ := by
  obtain ⟨page, s₁, halloc, hcall₁⟩ := Call.bind_eq_some.1 hcall
  obtain ⟨q₁, htaken⟩ := allocPage_spec h hr halloc
  obtain ⟨o, s₂, hfind, hcall₂⟩ := Call.bind_eq_some.1 hcall₁
  rw [findPte_eq, Option.some.injEq, Prod.mk.injEq] at hfind
  obtain ⟨ho, rfl⟩ := hfind
  obtain ⟨x, s₃, hsome, hcall₃⟩ := Call.bind_eq_some.1 hcall₂
  obtain ⟨hx, rfl⟩ := Call.ofOption_eq_some.1 hsome
  rw [← ho] at hx
  split at hx
  case isFalse => cases hx
  case isTrue htable =>
      cases hx
      obtain ⟨s₄, s₅, hread, hcall₄⟩ := Call.bind_eq_some.1 hcall₃
      obtain ⟨rfl, rfl⟩ := Call.get_eq_some.1 hread
      obtain ⟨r, s₆, hdev, hcall₅⟩ := Call.bind_eq_some.1 hcall₄
      obtain ⟨offset, s₇, hoffset, hdev₁⟩ := Call.bind_eq_some.1 hdev
      obtain ⟨hoff, rfl⟩ := Call.ofOption_eq_some.1 hoffset
      obtain ⟨⟨⟩, s₈, hset, hdev₂⟩ := Call.bind_eq_some.1 hdev₁
      obtain rfl := Call.modify_eq_some.1 hset
      obtain ⟨rfl, rfl⟩ := Call.pure_eq_some.1 hdev₂
      rw [if_neg (not_not_intro rfl)] at hcall₅
      obtain ⟨rfl, rfl⟩ := Call.pure_eq_some.1 hcall₅
      rw [← State.lookup_eq htable] at hoff
      have hshift := (swapOffset_eq_some.1 hoff).2
      have hne : s₇.lookup mm.pgdir (slotOf la) ≠ 0 := by
        intro hzero
        rw [hzero] at hoff
        cases hoff
      have hd := htaken.moves.paged.root hne
      subst hd
      have hswap : frameOf (s₇.lookup mm.pgdir (slotOf la)) = none := by
        cases hframe : frameOf (s₇.lookup mm.pgdir (slotOf la)) with
        | none => rfl
        | some f =>
            have hf := htaken.moves.paged.resident hframe
            rw [swapOffset_valid hframe
              (htaken.moves.paged.managed (.inr hf.1))] at hoff
            cases hoff
      refine ⟨rfl, q₁, s₇, htaken, htable, hne, hswap, ?_⟩
      rw [hshift]
      rfl

theorem readIn_paged {offset : Nat} (h : Paged d q s) :
    Paged d q (readIn p offset s) :=
  ⟨h.queue, h.root, h.entry, h.mapped, h.held, h.managed, h.cleared⟩

/-- Reading into a page in hand changes no page that is mapped. -/
theorem readIn_content {offset : Nat} (h : Paged d q s) (hp : InHand q s p)
    (x : Slot) : (readIn p offset s).content d x = s.content d x := by
  have hlookup : (readIn p offset s).lookup d x = s.lookup d x := rfl
  unfold State.content
  rw [hlookup]
  cases hframe : frameOf (s.lookup d x) with
  | none => rfl
  | some f =>
      have hne : f ≠ p := by
        intro heq
        exact hp.notQueued (heq ▸ (h.resident hframe).1)
      show (if _ then none else some (Function.update s.mem p _ f)) = _
      rw [Function.update_of_ne hne]

/-- Reading into the page that was taken is part of the move. -/
theorem Taken.readIn {offset : Nat} (h : Taken d q s p q' t) :
    Taken d q s p q' (readIn p offset t) where
  moves :=
    { paged := readIn_paged h.moves.paged
      prefix_of := h.moves.prefix_of
      content := fun hx =>
        (readIn_content h.moves.paged h.hand _).trans (h.moves.content hx)
      mapped := h.moves.mapped
      still := h.moves.still
      valid := h.moves.valid
      hasTable := h.moves.hasTable
      fresh := h.moves.fresh
      ref_eq := h.moves.ref_eq
      mem_eq := fun {f} hfree hq => by
        have hne : f ≠ p := by
          intro heq
          rcases h.origin with hin | hin
          · exact hfree (heq ▸ hin)
          · exact hq (heq ▸ hin)
        show Function.update t.mem p _ f = _
        rw [Function.update_of_ne hne, h.moves.mem_eq hfree hq]
      vaddr_eq := h.moves.vaddr_eq
      mms_eq := h.moves.mms_eq
      checkMm_eq := h.moves.checkMm_eq
      count := h.moves.count }
  hand := ⟨h.hand.notFree, h.hand.notQueued, h.hand.managed⟩
  origin := h.origin
  ref := h.ref
  dirs := h.dirs
  tables := h.tables

/-- The page that `swap_in` returns holds what the slot held. -/
theorem swapIn_taken (h : Paged d q s) (hr : Ready d q s)
    (hcall : swapIn sm mm la s = some (p, t)) :
    mm.pgdir = d ∧ t.content d (slotOf la) = some (t.mem p)
      ∧ frameOf (t.lookup d (slotOf la)) = none
      ∧ ∃ q', Taken d q s p q' t := by
  obtain ⟨hd, q', s₁, htaken, htable, hne, hswap, rfl⟩ :=
    swapIn_spec h hr hcall
  refine ⟨hd, ?_, hswap, q', htaken.readIn⟩
  rw [readIn_content htaken.moves.paged htaken.hand, State.content,
    if_neg hne, hswap]
  show _ = some (Function.update s₁.mem p _ p)
  rw [Function.update_self]

/-- The state after a fault changed the cached area of an `mm_struct`. -/
def cacheArea (mm : Nat) (val : MmStruct) (s : State M) : State M :=
  { s with mms := Function.update s.mms mm (some val) }

theorem faultPerm_lt (vma : Mm.Vma) : faultPerm vma < 2 ^ 10 := by
  unfold faultPerm
  split <;> decide

/-- What `do_pgfault` does once it has the entry. -/
theorem resolveFault_spec (h : Paged d q s) (hr : Ready d q s)
    (hroot : mm.pgdir = d) (hpriv : mm.smPriv = some .praListHead)
    (hperm : perm < 2 ^ 10) (htable : s.HasTable d (slotOf la))
    (hcall : resolveFault sm mm (slotOf la) la perm s = some ((), t)) :
    ∃ q', Faulted d q s la perm q' t := by
  subst hroot
  obtain ⟨s₁, s₂, hread, hcall₁⟩ := Call.bind_eq_some.1 hcall
  obtain ⟨rfl, rfl⟩ := Call.get_eq_some.1 hread
  rw [← State.lookup_eq htable] at hcall₁
  by_cases hzero : s₂.lookup mm.pgdir (slotOf la) = 0
  · rw [if_pos hzero] at hcall₁
    obtain ⟨page, s₃, halloc, hret⟩ := Call.bind_eq_some.1 hcall₁
    obtain ⟨-, rfl⟩ := Call.pure_eq_some.1 hret
    exact pgdirAllocPage_spec h hr hzero hperm halloc
  · rw [if_neg hzero] at hcall₁
    obtain ⟨page, s₃, hin, hcall₂⟩ := Call.bind_eq_some.1 hcall₁
    obtain ⟨-, hcontent, hempty, q₁, htaken⟩ := swapIn_taken h hr hin
    obtain ⟨⟨⟩, s₄, hinsert, hcall₃⟩ := Call.bind_eq_some.1 hcall₂
    obtain ⟨q₂, s₅, hmoves, htable', rfl⟩ :=
      pageInsert_spec htaken.moves.paged (htaken.moves.ready hr) hempty hinsert
    have hall := htaken.moves.trans hmoves
    have hhand := hmoves.inHand htaken.hand
    obtain ⟨⟨⟩, s₆, hmap, hset⟩ := Call.bind_eq_some.1 hcall₃
    have hqueue : Queue (insertAt mm.pgdir page la perm s₅).links q₂ :=
      hall.paged.queue
    rw [mapSwappable_eq _ hqueue hpriv hhand.notQueued hall.paged.length_le,
      Option.some.injEq, Prod.mk.injEq] at hmap
    obtain rfl := hmap.2
    obtain rfl := Call.modify_eq_some.1 hset
    have hmissing := missing_of_moves la htaken.moves htaken.dirs
      htaken.tables
    have hne : s₃.lookup mm.pgdir (slotOf la) ≠ 0 := by
      intro heq
      rw [State.content, if_pos heq] at hcontent
      cases hcontent
    refine ⟨page :: q₂, hall.faulted hhand htaken.origin htable' ?_ hperm
      ?_ ?_⟩
    · rw [hmoves.still hempty]
      exact hempty
    · rw [hmissing, Nat.add_comm]
    · intro _
      rw [hmoves.content hne, hcontent,
        hmoves.mem_eq htaken.hand.notFree htaken.hand.notQueued]

/-- A fault after moves of the same address space. -/
theorem Moves.then_faulted (h : Moves d q s q' t (missing s d la))
    (htable : t.HasTable d (slotOf la)) {r : List Nat}
    (h' : Faulted d q' t la perm r u) : Faulted d q s la perm r u where
  paged := h'.paged
  ne_nil := h'.ne_nil
  content hx := (h'.content (h.mapped hx)).trans (h.content hx)
  entry := h'.entry
  valid hslot hx := by
    have heq := h'.valid hslot hx
    rw [heq, h.valid (heq ▸ hx)]
  vaddr hf := by
    rcases h'.vaddr hf with hla | ⟨hq, heq⟩
    · exact .inl hla
    · exact .inr ⟨h.prefix_of.subset hq, heq.trans (congrFun h.vaddr_eq _)⟩
  mms_eq := h'.mms_eq.trans h.mms_eq
  checkMm_eq := h'.checkMm_eq.trans h.checkMm_eq
  hasTable hx := h'.hasTable (h.hasTable hx)
  fresh hf := h.fresh (h'.fresh hf)
  count := by
    have hdir : (t.dirs d (pdx1 la)).isSome := htable.1
    have hpt : (t.tables d (pdx1 la) (pdx0 la)).isSome := htable.2
    have hzero : missing t d la = 0 := by
      unfold missing
      rw [if_pos hdir, if_pos hpt]
    have := h.count
    have := h'.count
    omega

theorem cacheArea_paged {i : Nat} (h : Paged d q s) (val : MmStruct) :
    Paged d q (cacheArea i val s) :=
  ⟨h.queue, h.root, h.entry, h.mapped, h.held, h.managed, h.cleared⟩

theorem cacheArea_ready {i : Nat} {val val' : MmStruct} (hr : Ready d q s)
    (hmm : s.mms i = some val) (hpriv : val'.smPriv = val.smPriv)
    (hroot : val'.pgdir = val.pgdir) : Ready d q (cacheArea i val' s) := by
  intro m hm
  obtain ⟨j, hj, hm⟩ := Option.bind_eq_some_iff.1 hm
  by_cases hji : j = i
  · subst hji
    have heq : val' = m := by
      simpa [cacheArea] using hm
    subst heq
    rw [hpriv, hroot]
    exact hr val (Option.bind_eq_some_iff.2 ⟨j, hj, hmm⟩)
  · have hm' : s.mms j = some m := by
      simpa [cacheArea, hji] using hm
    exact hr m (Option.bind_eq_some_iff.2 ⟨j, hj, hm'⟩)

theorem found_eq (val : MmStruct) (addr : Nat) : val.found addr
    = { val with
        mmapCache := (Mm.candidate val.toMmStruct addr).or val.mmapCache } := by
  unfold MmStruct.found
  rw [Mm.findVma_eq]

/-- `do_pgfault` fails where there is no area and serves the page of the
address otherwise. -/
theorem doPgfault_spec {i : Nat} {val : MmStruct} {b : Bool}
    (h : Paged d q s) (hr : Ready d q s) (hmm : s.mms i = some val)
    (hpriv : val.smPriv = some .praListHead)
    (hroot : Mm.candidate val.toMmStruct addr ≠ none → val.pgdir = d)
    (hcall : doPgfault sm i addr s = some (b, t)) :
    (Mm.candidate val.toMmStruct addr = none ∧ b = false
        ∧ t = cacheArea i (val.found addr) s)
      ∨ ∃ vma q', Mm.candidate val.toMmStruct addr = some vma ∧ b = true
        ∧ Faulted d q (cacheArea i (val.found addr) s) (rounddown addr pgsize)
          (faultPerm vma) q' t := by
  obtain ⟨m, s₁, hderef, hcall₁⟩ := Call.bind_eq_some.1 hcall
  rw [derefMm_eq, Option.map_eq_some_iff] at hderef
  obtain ⟨m', hm', heq⟩ := hderef
  cases heq
  have hm : m = val := by
    rw [Option.bind_some, hmm] at hm'
    exact (Option.some.inj hm').symm
  subst hm
  obtain ⟨⟨⟩, s₂, hset, hcall₂⟩ := Call.bind_eq_some.1 hcall₁
  obtain rfl := Call.modify_eq_some.1 hset
  have hcand : (findVma m.toMmStruct addr).1
      = Mm.candidate m.toMmStruct addr := by
    rw [Mm.findVma_eq]
  rw [hcand] at hcall₂
  have hfound : (m.found addr).pgdir = m.pgdir
      ∧ (m.found addr).smPriv = m.smPriv := by
    rw [found_eq]
    exact ⟨rfl, rfl⟩
  cases hc : Mm.candidate m.toMmStruct addr with
  | none =>
      rw [hc] at hcall₂
      obtain ⟨rfl, rfl⟩ := Call.pure_eq_some.1 hcall₂
      exact .inl ⟨rfl, rfl, rfl⟩
  | some vma =>
      rw [hc] at hcall₂
      have hhas := (Mm.candidate_some hc).1
      have hnot : ¬ addr < vma.vmStart := Nat.not_lt.mpr hhas.1
      dsimp only at hcall₂
      rw [if_neg hnot] at hcall₂
      have hd := hroot (hc ▸ (fun h => by cases h))
      have hpaged := cacheArea_paged (i := i) h (m.found addr)
      have hready := cacheArea_ready hr hmm hfound.2 hfound.1
      obtain ⟨o, s₃, hget, hcall₃⟩ := Call.bind_eq_some.1 hcall₂
      have hd' : (m.found addr).pgdir = d := hfound.1.trans hd
      rw [← hd'] at hpaged hready ⊢
      obtain ⟨rfl, htable, q₁, hmoves⟩ := getPte_spec hpaged hready hget
      obtain ⟨x, s₄, hsome, hcall₄⟩ := Call.bind_eq_some.1 hcall₃
      obtain ⟨hx, rfl⟩ := Call.ofOption_eq_some.1 hsome
      cases hx
      obtain ⟨⟨⟩, s₅, hresolve, hret⟩ := Call.bind_eq_some.1 hcall₄
      obtain ⟨rfl, rfl⟩ := Call.pure_eq_some.1 hret
      obtain ⟨q₂, hfault⟩ := resolveFault_spec hmoves.paged
        (hmoves.ready hready) rfl (hfound.2.trans hpriv) (faultPerm_lt vma)
        htable hresolve
      exact .inr ⟨vma, q₂, rfl, rfl, hmoves.then_faulted htable hfault⟩

end Ucore.Swap
