/-
The invariant of one address space under paging.

# The invariant

`Paged d q s` relates the entries below the root directory `d` to the
queue `q`: an entry names a page of the queue or a slot of the device, each
page of the queue is mapped where its `pra_vaddr` says, and the allocator
holds none of them. All other roots have no entries.

# What the operations do

`Moves d q s q' t` is what an allocation may do on its way: pages leave the
queue from its back for the device, page tables are added, and no page that
is mapped or swapped out loses its contents. Its last argument counts the
pages that were taken.
-/
import Ucore.Swap.Proofs.Queue
import Ucore.Swap.Proofs.Tables

namespace Ucore.Swap

open Mm (Managed)

variable {M : PmmManager} {s t u : State M} {d n k : Nat} {x : Slot}
  {q q' q'' : List Nat} {p : Nat}

/-- The contents of the page that is mapped in a slot or swapped out
from it. -/
def State.content (s : State M) (d : Nat) (x : Slot) :
    Option (Nat → Nat) :=
  if s.lookup d x = 0 then none
  else
    match frameOf (s.lookup d x) with
    | some p => some (s.mem p)
    | none => some (s.disk (s.lookup d x >>> 8))

/-- An entry under which a page went from the slot to the device. -/
def InSwap (w : Nat) (x : Slot) : Prop :=
  ∃ v, slotOf v = x ∧ w = swapEntry v ∧ v / pgsize + 1 < maxSwapOffset

/-- An entry that maps a page of the queue. -/
def Resident (s : State M) (q : List Nat) (w : Nat) (x : Slot) : Prop :=
  ∃ p ∈ q, frameOf w = some p ∧ slotOf (s.praVaddr p) = x

structure Paged (d : Nat) (q : List Nat) (s : State M) : Prop where
  queue : Queue s.links q
  root : ∀ {d' x}, s.lookup d' x ≠ 0 → d' = d
  entry : ∀ {x}, s.lookup d x ≠ 0 →
    InSwap (s.lookup d x) x ∨ Resident s q (s.lookup d x) x
  mapped : ∀ {p}, p ∈ q →
    frameOf (s.lookup d (slotOf (s.praVaddr p))) = some p
  held : ∀ {p}, p ∈ q → p ∉ s.free
  managed : ∀ {p}, p ∈ s.free ∨ p ∈ q → Managed p
  cleared : ∀ {p}, p ∈ s.free → s.ref p = 0

/-- An address lies in the range of the swap device. -/
def OnDevice (v : Nat) : Prop := v / pgsize + 1 < maxSwapOffset

instance (v : Nat) : Decidable (OnDevice v) :=
  inferInstanceAs (Decidable (_ < _))

structure Moves (d : Nat) (q : List Nat) (s : State M) (q' : List Nat)
    (t : State M) (n : Nat) : Prop where
  paged : Paged d q' t
  prefix_of : q' <+: q
  content : ∀ {x}, s.lookup d x ≠ 0 → t.content d x = s.content d x
  mapped : ∀ {x}, s.lookup d x ≠ 0 → t.lookup d x ≠ 0
  still : ∀ {x}, frameOf (s.lookup d x) = none → t.lookup d x = s.lookup d x
  valid : ∀ {x}, frameOf (t.lookup d x) ≠ none → t.lookup d x = s.lookup d x
  hasTable : ∀ {x}, s.HasTable d x → t.HasTable d x
  fresh : ∀ {f}, f ∈ t.free ∨ f ∈ q' → f ∈ s.free ∨ f ∈ q
  ref_eq : ∀ {f}, f ∉ s.free → f ∉ q → t.ref f = s.ref f
  mem_eq : ∀ {f}, f ∉ s.free → f ∉ q → t.mem f = s.mem f
  vaddr_eq : t.praVaddr = s.praVaddr
  mms_eq : t.mms = s.mms
  checkMm_eq : t.checkMm = s.checkMm
  count : t.free.card + q'.length + n = s.free.card + q.length

theorem Moves.refl (h : Paged d q s) : Moves d q s q s 0 where
  paged := h
  prefix_of := List.prefix_refl q
  content _ := rfl
  mapped := id
  still _ := rfl
  valid _ := rfl
  hasTable := id
  fresh := id
  ref_eq _ _ := rfl
  mem_eq _ _ := rfl
  vaddr_eq := rfl
  mms_eq := rfl
  checkMm_eq := rfl
  count := rfl

/-- A page that is neither free nor queued stays so. -/
theorem Moves.out (h : Moves d q s q' t n) (hfree : p ∉ s.free)
    (hq : p ∉ q) : p ∉ t.free ∧ p ∉ q' :=
  not_or.mp fun hin => (h.fresh hin).elim hfree hq

theorem Moves.trans (h : Moves d q s q' t n) (h' : Moves d q' t q'' u k) :
    Moves d q s q'' u (n + k) where
  paged := h'.paged
  prefix_of := h'.prefix_of.trans h.prefix_of
  content hx := (h'.content (h.mapped hx)).trans (h.content hx)
  mapped hx := h'.mapped (h.mapped hx)
  still hx := by
    have heq := h.still hx
    rw [h'.still (heq ▸ hx), heq]
  valid hx := by
    have heq := h'.valid hx
    rw [heq, h.valid (heq ▸ hx)]
  hasTable hx := h'.hasTable (h.hasTable hx)
  fresh hf := h.fresh (h'.fresh hf)
  ref_eq hfree hq := by
    have hout := h.out hfree hq
    rw [h'.ref_eq hout.1 hout.2, h.ref_eq hfree hq]
  mem_eq hfree hq := by
    have hout := h.out hfree hq
    rw [h'.mem_eq hout.1 hout.2, h.mem_eq hfree hq]
  vaddr_eq := h'.vaddr_eq.trans h.vaddr_eq
  mms_eq := h'.mms_eq.trans h.mms_eq
  checkMm_eq := h'.checkMm_eq.trans h.checkMm_eq
  count := by
    have := h.count
    have := h'.count
    omega

theorem Paged.length_le (h : Paged d q s) : q.length ≤ npage := by
  have hsub : q ⊆ List.range npage := by
    intro p hp
    exact List.mem_range.mpr (h.managed (.inr hp)).2
  have := (h.queue.nodup.subperm hsub).length_le
  rwa [List.length_range] at this

/-- An entry of the one address space is 0, in swap or of a queued page, so
a valid one names a page of the queue. -/
theorem Paged.resident (h : Paged d q s)
    (hx : frameOf (s.lookup d x) = some p) :
    p ∈ q ∧ slotOf (s.praVaddr p) = x := by
  have hne : s.lookup d x ≠ 0 := by
    intro hzero
    rw [hzero, frameOf_zero] at hx
    cases hx
  rcases h.entry hne with ⟨v, -, hw, -⟩ | ⟨p', hp', hframe, hslot⟩
  · rw [hw, frameOf_swapEntry] at hx
    cases hx
  · rw [hframe] at hx
    cases hx
    exact ⟨hp', hslot⟩

/-- Two slots that map one page are the same. -/
theorem Paged.slot_inj (h : Paged d q s) {x x' : Slot}
    (hx : frameOf (s.lookup d x) = some p)
    (hx' : frameOf (s.lookup d x') = some p) : x = x' :=
  (h.resident hx).2.symm.trans (h.resident hx').2

/-- Two slots whose pages are in one place on the device are the same. -/
theorem Paged.swapped_inj (h : Paged d q s) {x x' : Slot}
    (hx : InSwap (s.lookup d x) x) (hx' : InSwap (s.lookup d x') x')
    (heq : s.lookup d x >>> 8 = s.lookup d x' >>> 8) : x = x' := by
  obtain ⟨v, rfl, hw, -⟩ := hx
  obtain ⟨v', rfl, hw', -⟩ := hx'
  rw [hw, hw'] at heq
  exact slotOf_of_swapEntry heq

-- ========================================================== eviction

/-- The state after a page that is off the queue was swapped out. -/
def writeOut (d p : Nat) (s : State M) : State M :=
  let v := s.praVaddr p
  let s := { s with disk := Function.update s.disk (v / pgsize + 1) (s.mem p) }
  let s := setPte d (slotOf v) (swapEntry v) s
  { setPageRef p 0 s with pmm := M.freePages s.pmm p }

/-- The state after the page `p` was swapped out. -/
def evict (d p : Nat) (s : State M) : State M :=
  writeOut d p (mapLinks (fun m => listDel m (.page p)) s)

theorem evict_lookup (h : s.HasTable d (slotOf (s.praVaddr p))) (d' : Nat)
    (x : Slot) : (evict d p s).lookup d' x
      = if d' = d ∧ x = slotOf (s.praVaddr p) then swapEntry (s.praVaddr p)
        else s.lookup d' x :=
  lookup_setPte h d' x

theorem evict_free (hp : p ∉ s.free) :
    (evict d p s).free = insert p s.free :=
  M.freePages_spec s.pmm p hp

theorem evict_ref (f : Nat) : (evict d p s).ref f
    = if f = p then 0 else s.ref f :=
  Function.update_apply _ _ _ _

/-- `swapfs_write` under a swap entry. -/
theorem swapfsWrite_eq (s : State M) (v page : Nat) :
    swapfsWrite (swapEntry v) page s
      = if OnDevice v then
          some (0, { s with
            disk := Function.update s.disk (v / pgsize + 1) (s.mem page) })
        else none := by
  unfold swapfsWrite
  rw [swapOffset_swapEntry]
  by_cases hdev : OnDevice v
  · rw [if_pos hdev, if_pos (show v / pgsize + 1 < maxSwapOffset from hdev)]
    rfl
  · rw [if_neg hdev,
      if_neg (show ¬ v / pgsize + 1 < maxSwapOffset from hdev)]
    rfl

/-- A page whose entry is valid is written out, if its address lies in the
range of the device. -/
theorem swapOutPage_eq {sm : Manager} {mm : MmStruct}
    (hvalid : hasFlag (s.lookup mm.pgdir (slotOf (s.praVaddr p))) pteV) :
    swapOutPage sm mm p s
      = if OnDevice (s.praVaddr p) then some ((), writeOut mm.pgdir p s)
        else none := by
  have htable : s.HasTable mm.pgdir (slotOf (s.praVaddr p)) := by
    refine State.hasTable_of_lookup fun hzero => ?_
    rw [hzero] at hvalid
    exact hasFlag_zero pteV hvalid
  rw [State.lookup_eq htable] at hvalid
  have hfind := findPte_eq s mm.pgdir (s.praVaddr p)
  rw [if_pos htable] at hfind
  have hassert : (Call.assert (hasFlag (s.pte mm.pgdir
      (slotOf (s.praVaddr p))) pteV) : Call (State M) Unit) s
        = some ((), s) :=
    Call.assert_eq_some.2 ⟨hvalid, rfl⟩
  have hwrite := swapfsWrite_eq s (s.praVaddr p) p
  unfold swapOutPage
  rw [Call.bind_of_eq _ rfl, Call.bind_of_eq _ hfind, Call.bind_of_eq _ rfl,
    Call.bind_of_eq _ rfl, Call.bind_of_eq _ hassert]
  by_cases hdev : OnDevice (s.praVaddr p)
  · rw [if_pos hdev] at hwrite ⊢
    rw [Call.bind_of_eq _ hwrite]
    rfl
  · rw [if_neg hdev] at hwrite ⊢
    exact Call.bind_of_none _ hwrite

/-- A round of `swap_out` evicts the page at the back of the queue, if its
address lies in the range of the device. -/
theorem swapOutOne_eq {sm : Manager} {mm : MmStruct}
    (h : Paged mm.pgdir (q ++ [p]) s) (hpriv : mm.smPriv = some .praListHead) :
    swapOutOne sm mm 0 s
      = if OnDevice (s.praVaddr p) then some ((), evict mm.pgdir p s)
        else none := by
  have hmap := h.mapped (List.mem_append_right q List.mem_cons_self)
  have hvalid : hasFlag (s.lookup mm.pgdir (slotOf (s.praVaddr p))) pteV := by
    by_contra hno
    rw [frameOf_eq_none_iff.mpr hno] at hmap
    cases hmap
  unfold swapOutOne
  rw [Call.bind_of_eq _ (swapOutVictim_concat h.queue hpriv),
    Call.bind_of_eq _ rfl]
  exact swapOutPage_eq (s := mapLinks (fun m => listDel m (.page p)) s) hvalid

theorem Paged.hasTable (h : Paged d q s) (hp : p ∈ q) :
    s.HasTable d (slotOf (s.praVaddr p)) := by
  refine State.hasTable_of_lookup fun hzero => ?_
  have hmap := h.mapped hp
  rw [hzero, frameOf_zero] at hmap
  cases hmap

/-- An evicted page keeps its contents, on the device. -/
theorem evict_content (h : Paged d (q ++ [p]) s)
    (hdev : OnDevice (s.praVaddr p)) (hx : s.lookup d x ≠ 0) :
    (evict d p s).content d x = s.content d x := by
  have hlast : p ∈ q ++ [p] := List.mem_append_right q List.mem_cons_self
  have hmap := h.mapped hlast
  have hlookup := evict_lookup (h.hasTable hlast) d x
  have hdisk : (evict d p s).disk = Function.update s.disk
      (s.praVaddr p / pgsize + 1) (s.mem p) := rfl
  unfold State.content
  by_cases hslot : x = slotOf (s.praVaddr p)
  · rw [if_pos ⟨rfl, hslot⟩] at hlookup
    rw [hlookup, if_neg (swapEntry_ne_zero _), if_neg hx, frameOf_swapEntry,
      hslot, hmap]
    show some ((evict d p s).disk (swapEntry (s.praVaddr p) >>> 8)) = _
    rw [swapEntry_shiftRight, hdisk, Function.update_self]
  · rw [if_neg fun heq => hslot heq.2] at hlookup
    rw [hlookup, if_neg hx, if_neg hx]
    cases hframe : frameOf (s.lookup d x) with
    | some f => rfl
    | none =>
        rcases h.entry hx with hswap | ⟨f, -, hf, -⟩
        · obtain ⟨v, hv, hw, -⟩ := hswap
          have hne : swapEntry v >>> 8 ≠ s.praVaddr p / pgsize + 1 := by
            rw [← swapEntry_shiftRight (s.praVaddr p)]
            intro heq
            exact hslot (hv.symm.trans (slotOf_of_swapEntry heq))
          show some ((evict d p s).disk (s.lookup d x >>> 8)) = _
          rw [hw, hdisk, Function.update_of_ne hne]
        · rw [hframe] at hf
          cases hf

/-- Eviction moves the page at the back of the queue to the device. -/
theorem evict_moves (h : Paged d (q ++ [p]) s)
    (hdev : OnDevice (s.praVaddr p)) :
    Moves d (q ++ [p]) s q (evict d p s) 0 := by
  have hlast : p ∈ q ++ [p] := List.mem_append_right q List.mem_cons_self
  have hmap := h.mapped hlast
  have hlookup := evict_lookup (h.hasTable hlast)
  have hfree := evict_free (d := d) (h.held hlast)
  have hnotin : p ∉ q := by
    have hnodup := h.queue.nodup
    intro hp
    exact (List.nodup_append.1 hnodup).2.2 p hp p List.mem_cons_self rfl
  have hsub : ∀ {f}, f ∈ q → f ∈ q ++ [p] := List.mem_append_left [p]
  have hother : ∀ {f}, f ∈ q →
      slotOf (s.praVaddr f) ≠ slotOf (s.praVaddr p) := by
    intro f hf heq
    have hmapf := h.mapped (hsub hf)
    rw [heq, hmap] at hmapf
    exact hnotin (Option.some.inj hmapf ▸ hf)
  refine
    { paged := ⟨?_, ?_, ?_, ?_, ?_, ?_, ?_⟩
      prefix_of := List.prefix_append q [p]
      content := evict_content h hdev
      mapped := ?_, still := ?_, valid := ?_, hasTable := id, fresh := ?_
      ref_eq := ?_
      mem_eq := fun _ _ => rfl, vaddr_eq := rfl, mms_eq := rfl, checkMm_eq := rfl
      count := ?_ }
  · exact Queue.del h.queue
  · intro d' x hx
    rw [hlookup] at hx
    by_cases hslot : d' = d ∧ x = slotOf (s.praVaddr p)
    · exact hslot.1
    · rw [if_neg hslot] at hx
      exact h.root hx
  · intro x hx
    rw [hlookup] at hx ⊢
    by_cases hslot : x = slotOf (s.praVaddr p)
    · rw [if_pos ⟨rfl, hslot⟩]
      exact .inl ⟨s.praVaddr p, hslot.symm, rfl, hdev⟩
    · have hno : ¬ (d = d ∧ x = slotOf (s.praVaddr p)) :=
        fun heq => hslot heq.2
      rw [if_neg hno] at hx ⊢
      rcases h.entry hx with hswap | ⟨f, hf, hframe, hfslot⟩
      · exact .inl hswap
      · refine .inr ⟨f, ?_, hframe, hfslot⟩
        rcases List.mem_append.1 hf with hf | hf
        · exact hf
        · rw [List.mem_singleton] at hf
          exact absurd (hf ▸ hfslot).symm hslot
  · intro f hf
    have hno : ¬ (d = d ∧ slotOf (s.praVaddr f) = slotOf (s.praVaddr p)) :=
      fun heq => hother hf heq.2
    show frameOf ((evict d p s).lookup d (slotOf (s.praVaddr f))) = _
    rw [hlookup, if_neg hno]
    exact h.mapped (hsub hf)
  · intro f hf
    rw [hfree, Finset.mem_insert, not_or]
    exact ⟨fun heq => hnotin (heq ▸ hf), h.held (hsub hf)⟩
  · intro f hf
    rw [hfree, Finset.mem_insert] at hf
    rcases hf with (rfl | hf) | hf
    · exact h.managed (.inr hlast)
    · exact h.managed (.inl hf)
    · exact h.managed (.inr (hsub hf))
  · intro f hf
    rw [hfree, Finset.mem_insert] at hf
    rw [evict_ref]
    rcases hf with rfl | hf
    · exact if_pos rfl
    · rw [h.cleared hf]
      exact ite_self 0
  · intro x hx
    rw [hlookup]
    split
    case isTrue => exact swapEntry_ne_zero _
    case isFalse => exact hx
  · intro x hx
    rw [hlookup, if_neg]
    intro heq
    rw [heq.2, hmap] at hx
    cases hx
  · intro x hx
    rw [hlookup] at hx ⊢
    by_cases hslot : d = d ∧ x = slotOf (s.praVaddr p)
    · rw [if_pos hslot, frameOf_swapEntry] at hx
      exact absurd rfl hx
    · rw [if_neg hslot]
  · intro f hf
    rw [hfree, Finset.mem_insert] at hf
    rcases hf with (rfl | hf) | hf
    · exact .inr hlast
    · exact .inl hf
    · exact .inr (hsub hf)
  · intro f _ hf
    rw [evict_ref, if_neg]
    intro heq
    exact hf (heq ▸ hlast)
  · rw [hfree, Finset.card_insert_of_notMem (h.held hlast),
      List.length_append, List.length_singleton]
    omega

/-- An empty queue has nothing to evict. -/
theorem swapOutOne_nil {sm : Manager} {mm : MmStruct}
    (hq : Queue s.links []) (hpriv : mm.smPriv = some .praListHead) :
    swapOutOne sm mm 0 s = none := by
  obtain ⟨t, hvictim⟩ := swapOutVictim_nil sm hq hpriv
  unfold swapOutOne
  rw [Call.bind_of_eq _ hvictim]
  rfl

end Ucore.Swap
