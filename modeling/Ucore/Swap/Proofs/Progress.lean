/-
Nothing panics while there is a page for each allocation, free or queued,
and the queued pages lie in the range of the device.
-/
import Ucore.Swap.Proofs.Fault

namespace Ucore.Swap

open Mm (Managed)

variable {M : PmmManager} {s t u : State M} {d n k : Nat} {x : Slot}
  {q q' : List Nat} {p la addr perm : Nat} {sm : Manager} {mm : MmStruct}

/-- What an eviction needs beside a page on the queue. -/
structure Fit (d : Nat) (q : List Nat) (s : State M) : Prop where
  paged : Paged d q s
  ready : Ready d q s
  device : ∀ {p}, p ∈ q → OnDevice (s.praVaddr p)
  check : ∃ m, s.checkMm.bind s.mms = some m

theorem Fit.moves (h : Fit d q s) (hm : Moves d q s q' t n) : Fit d q' t where
  paged := hm.paged
  ready := hm.ready h.ready
  device hp := by
    rw [hm.vaddr_eq]
    exact h.device (hm.prefix_of.subset hp)
  check := by
    rw [hm.checkMm_eq, hm.mms_eq]
    exact h.check

-- ======================================================= allocations

theorem swapOutOne_some (sm : Manager) (h : Fit d q s) (hne : q ≠ [])
    (hpriv : mm.smPriv = some .praListHead) (hroot : mm.pgdir = d) :
    ∃ t, swapOutOne sm mm 0 s = some ((), t) := by
  rcases List.eq_nil_or_concat q with rfl | ⟨r, p, rfl⟩
  · exact absurd rfl hne
  · rw [List.concat_eq_append] at h
    subst hroot
    have hdev := h.device (List.mem_append_right r List.mem_cons_self)
    refine ⟨evict mm.pgdir p s, ?_⟩
    rw [swapOutOne_eq h.paged hpriv, if_pos hdev]

theorem allocPage_some (sm : Manager) (h : Fit d q s) (hroom : 0 < s.free.card + q.length) :
    ∃ p t, allocPage sm s = some (p, t) := by
  unfold allocPage
  cases halloc : M.allocPages s.pmm with
  | some r =>
      obtain ⟨p, pmm⟩ := r
      exact ⟨p, _, allocLoop_found 1 halloc⟩
  | none =>
      have hfree : s.free = ∅ := by
        by_contra hne
        have hsome := M.allocPages_some s.pmm
          (Finset.nonempty_iff_ne_empty.mpr hne)
        rw [halloc] at hsome
        cases hsome
      have hne : q ≠ [] := by
        intro heq
        rw [hfree, heq] at hroom
        exact absurd hroom (Nat.lt_irrefl 0)
      obtain ⟨m, hm⟩ := h.check
      obtain ⟨hpriv, hroot⟩ := h.ready m hm
      obtain ⟨t, hone⟩ := swapOutOne_some sm h hne hpriv (hroot hne)
      obtain ⟨hfound, -⟩ := swapOutOne_moves h.paged hpriv hroot hone
      have hderef : derefMm s.checkMm s = some (m, s) := by
        rw [derefMm_eq, hm]
        rfl
      rw [allocLoop_full 1 halloc, Call.bind_of_eq _ hderef,
        Call.bind_of_eq _ (swapOut_one.trans hone)]
      cases halloc' : M.allocPages t.pmm with
      | none =>
          have hsome := M.allocPages_some t.pmm hfound
          rw [halloc'] at hsome
          cases hsome
      | some r =>
          obtain ⟨p, pmm⟩ := r
          exact ⟨p, _, allocLoop_found 0 halloc'⟩

theorem getDir_some (sm : Manager) (h : Fit d q s)
    (hroom : (s.dirs d (pdx1 la)).isSome ∨ 0 < s.free.card + q.length) :
    ∃ b t, getDir (allocPage sm) d la true s = some (b, t) := by
  unfold getDir
  rw [Call.bind_of_eq _ rfl]
  by_cases hd : (s.dirs d (pdx1 la)).isSome
  · rw [if_pos hd]
    exact ⟨true, s, rfl⟩
  · rw [if_neg hd, if_pos rfl]
    obtain ⟨page, t, halloc⟩ :=
      allocPage_some sm h (hroom.resolve_left hd)
    rw [Call.bind_of_eq _ halloc]
    exact ⟨true, _, rfl⟩

theorem getTable_some (sm : Manager) (h : Fit d q s)
    (hroom : (s.tables d (pdx1 la) (pdx0 la)).isSome
      ∨ 0 < s.free.card + q.length) :
    ∃ b t, getTable (allocPage sm) d la true s = some (b, t) := by
  unfold getTable
  rw [Call.bind_of_eq _ rfl]
  by_cases ht : (s.tables d (pdx1 la) (pdx0 la)).isSome
  · rw [if_pos ht]
    exact ⟨true, s, rfl⟩
  · rw [if_neg ht, if_pos rfl]
    obtain ⟨page, t, halloc⟩ :=
      allocPage_some sm h (hroom.resolve_left ht)
    rw [Call.bind_of_eq _ halloc]
    exact ⟨true, _, rfl⟩

/-- `get_pte` returns if there is a page for each table that is missing. -/
theorem getPte_some (sm : Manager) (h : Fit d q s)
    (hroom : missing s d la ≤ s.free.card + q.length) :
    ∃ t, getPte (allocPage sm) d la true s = some (some (slotOf la), t) := by
  unfold missing at hroom
  have hdir : (s.dirs d (pdx1 la)).isSome ∨ 0 < s.free.card + q.length := by
    by_cases hd : (s.dirs d (pdx1 la)).isSome
    · exact .inl hd
    · rw [if_neg hd] at hroom
      exact .inr (by omega)
  obtain ⟨b, s₁, hget⟩ := getDir_some sm h hdir
  obtain ⟨rfl, hsome, hhad, hnew⟩ := getDir_spec h.paged h.ready hget
  have hnext : ∃ q₁, Fit d q₁ s₁ ∧ ((s₁.tables d (pdx1 la) (pdx0 la)).isSome
      ∨ 0 < s₁.free.card + q₁.length) := by
    cases hd : (s.dirs d (pdx1 la)).isSome with
    | true =>
        obtain rfl := hhad hd
        refine ⟨q, h, ?_⟩
        rw [if_pos hd] at hroom
        by_cases ht : (s₁.tables d (pdx1 la) (pdx0 la)).isSome
        · exact .inl ht
        · rw [if_neg ht] at hroom
          exact .inr (by omega)
    | false =>
        obtain ⟨-, q₁, hmoves⟩ := hnew hd
        refine ⟨q₁, h.moves hmoves, .inr ?_⟩
        rw [hd, if_neg Bool.false_ne_true] at hroom
        have := hmoves.count
        omega
  obtain ⟨q₁, hfit, hroom₁⟩ := hnext
  obtain ⟨b, s₂, htable⟩ := getTable_some sm hfit hroom₁
  obtain ⟨rfl, -⟩ := getTable_spec hfit.paged hfit.ready htable
  refine ⟨s₂, ?_⟩
  unfold getPte
  rw [Call.bind_of_eq _ hget, if_pos rfl, Call.bind_of_eq _ htable]
  rfl

-- ============================================================ faults

theorem missing_of_hasTable (h : s.HasTable d (slotOf la)) :
    missing s d la = 0 := by
  have hdir : (s.dirs d (pdx1 la)).isSome := h.1
  have htable : (s.tables d (pdx1 la) (pdx0 la)).isSome := h.2
  unfold missing
  rw [if_pos hdir, if_pos htable]

/-- `page_insert` where there is a page table and no page. -/
theorem pageInsert_some (sm : Manager) (perm : Nat) (h : Fit d q s) (htable : s.HasTable d (slotOf la))
    (hempty : frameOf (s.lookup d (slotOf la)) = none) :
    ∃ t, pageInsert sm d p la perm s = some ((), t) := by
  have hzero := missing_of_hasTable htable
  obtain ⟨s₁, hget⟩ := getPte_some sm h (by rw [hzero]; omega)
  obtain ⟨-, htable₁, q₁, hmoves⟩ := getPte_spec h.paged h.ready hget
  have hno : ¬ hasFlag ((setPageRef p (s₁.ref p + 1) s₁).pte d (slotOf la))
      pteV := by
    show ¬ hasFlag (s₁.pte d (slotOf la)) pteV
    rw [← State.lookup_eq htable₁, ← frameOf_eq_none_iff, hmoves.still hempty]
    exact hempty
  have hreplace : replacePte d p (slotOf la)
      (setPageRef p (s₁.ref p + 1) s₁)
      = some ((), setPageRef p (s₁.ref p + 1) s₁) := by
    unfold replacePte
    rw [Call.bind_of_eq _ rfl, if_neg hno]
    rfl
  refine ⟨insertAt d p la perm s₁, ?_⟩
  unfold pageInsert
  rw [Call.bind_of_eq _ hget, Call.bind_of_eq _ rfl, Call.bind_of_eq _ rfl,
    Call.bind_of_eq _ rfl, Call.bind_of_eq _ hreplace]
  rfl

theorem pgdirAllocPage_some (sm : Manager) (perm : Nat) (h : Fit d q s)
    (htable : s.HasTable d (slotOf la))
    (hempty : s.lookup d (slotOf la) = 0)
    (hroom : 0 < s.free.card + q.length) :
    ∃ p t, pgdirAllocPage sm d la perm s = some (p, t) := by
  obtain ⟨page, s₁, halloc⟩ := allocPage_some sm h hroom
  obtain ⟨q₁, htaken⟩ := allocPage_spec h.paged h.ready halloc
  have hzero : frameOf (s.lookup d (slotOf la)) = none := by
    rw [hempty, frameOf_zero]
  have hzero₁ : frameOf (s₁.lookup d (slotOf la)) = none := by
    rw [htaken.moves.still hzero]
    exact hzero
  have hfit₁ := h.moves htaken.moves
  obtain ⟨s₂, hinsert⟩ := pageInsert_some sm perm (p := page) hfit₁ (htaken.moves.hasTable htable) hzero₁
  obtain ⟨q₂, s₃, hmoves, htable₃, rfl⟩ :=
    pageInsert_spec hfit₁.paged hfit₁.ready hzero₁ hinsert
  have hfit₃ := hfit₁.moves hmoves
  have hhand := hmoves.inHand htaken.hand
  obtain ⟨m, hm⟩ := hfit₃.check
  have hderef : derefMm (insertAt d page la perm s₃).checkMm
      (insertAt d page la perm s₃) = some (m, insertAt d page la perm s₃) := by
    rw [derefMm_eq]
    show (s₃.checkMm.bind s₃.mms).map _ = _
    rw [hm]
    rfl
  have hqueue : Queue (insertAt d page la perm s₃).links q₂ :=
    hfit₃.paged.queue
  have hmap := mapSwappable_eq sm hqueue (hfit₃.ready m hm).1
    hhand.notQueued hfit₃.paged.length_le
  have href : (mapIn d page la perm s₃).ref page = 1 := by
    rw [mapIn_ref, if_pos rfl,
      hmoves.ref_eq htaken.hand.notFree htaken.hand.notQueued, htaken.ref]
    rfl
  have hassert : (Call.assert ((mapIn d page la perm s₃).ref page = 1) :
      Call (State M) Unit) (mapIn d page la perm s₃)
        = some ((), mapIn d page la perm s₃) :=
    Call.assert_eq_some.2 ⟨href, rfl⟩
  refine ⟨page, mapIn d page la perm s₃, ?_⟩
  unfold pgdirAllocPage
  rw [Call.bind_of_eq _ halloc, Call.bind_of_eq _ hinsert,
    Call.bind_of_eq _ rfl, Call.bind_of_eq _ hderef, Call.bind_of_eq _ hmap,
    Call.bind_of_eq _ rfl, Call.bind_of_eq _ rfl]
  exact Call.bind_of_eq _ hassert

/-- `swap_in` of a page that was swapped out. -/
theorem swapIn_some (sm : Manager) (h : Fit mm.pgdir q s)
    (htable : s.HasTable mm.pgdir (slotOf la))
    (hswap : InSwap (s.lookup mm.pgdir (slotOf la)) (slotOf la))
    (hroom : 0 < s.free.card + q.length) :
    ∃ p t, swapIn sm mm la s = some (p, t) := by
  obtain ⟨page, s₁, halloc⟩ := allocPage_some sm h hroom
  obtain ⟨q₁, htaken⟩ := allocPage_spec h.paged h.ready halloc
  obtain ⟨v, -, hw, hdev⟩ := hswap
  have hzero : frameOf (s.lookup mm.pgdir (slotOf la)) = none := by
    rw [hw]
    exact frameOf_swapEntry v
  have htable₁ := htaken.moves.hasTable htable
  have hpte : s₁.pte mm.pgdir (slotOf la) = swapEntry v := by
    rw [← State.lookup_eq htable₁, htaken.moves.still hzero, hw]
  have hfind := findPte_eq s₁ mm.pgdir la
  rw [if_pos htable₁] at hfind
  have hoffset : swapOffset (s₁.pte mm.pgdir (slotOf la))
      = some (v / pgsize + 1) := by
    rw [hpte, swapOffset_swapEntry, if_pos hdev]
  have hread : swapfsRead (s₁.pte mm.pgdir (slotOf la)) page s₁
      = some (0, readIn page (v / pgsize + 1) s₁) := by
    unfold swapfsRead
    rw [hoffset]
    rfl
  refine ⟨page, readIn page (v / pgsize + 1) s₁, ?_⟩
  unfold swapIn
  rw [Call.bind_of_eq _ halloc, Call.bind_of_eq _ hfind, Call.bind_of_eq _ rfl,
    Call.bind_of_eq _ rfl, Call.bind_of_eq _ hread]
  rfl

theorem resolveFault_some (sm : Manager) (perm : Nat) (h : Fit mm.pgdir q s)
    (hpriv : mm.smPriv = some .praListHead)
    (htable : s.HasTable mm.pgdir (slotOf la))
    (hout : frameOf (s.lookup mm.pgdir (slotOf la)) = none)
    (hroom : 0 < s.free.card + q.length) :
    ∃ t, resolveFault sm mm (slotOf la) la perm s = some ((), t) := by
  unfold resolveFault
  rw [Call.bind_of_eq _ rfl, ← State.lookup_eq htable]
  by_cases hzero : s.lookup mm.pgdir (slotOf la) = 0
  · rw [if_pos hzero]
    obtain ⟨page, t, hcall⟩ :=
      pgdirAllocPage_some sm perm h htable hzero hroom
    rw [Call.bind_of_eq _ hcall]
    exact ⟨t, rfl⟩
  · rw [if_neg hzero]
    have hswap : InSwap (s.lookup mm.pgdir (slotOf la)) (slotOf la) := by
      rcases h.paged.entry hzero with hin | ⟨p, -, hframe, -⟩
      · exact hin
      · rw [hout] at hframe
        cases hframe
    obtain ⟨page, s₁, hin⟩ := swapIn_some sm h htable hswap hroom
    obtain ⟨-, -, hempty, q₁, htaken⟩ := swapIn_taken h.paged h.ready hin
    have hfit₁ := h.moves htaken.moves
    obtain ⟨s₂, hinsert⟩ := pageInsert_some sm perm (p := page) hfit₁ (htaken.moves.hasTable htable) hempty
    obtain ⟨q₂, s₃, hmoves, -, rfl⟩ :=
      pageInsert_spec hfit₁.paged hfit₁.ready hempty hinsert
    have hqueue : Queue (insertAt mm.pgdir page la perm s₃).links q₂ :=
      hmoves.paged.queue
    have hmap := mapSwappable_eq sm hqueue hpriv
      (hmoves.inHand htaken.hand).notQueued hmoves.paged.length_le
    rw [Call.bind_of_eq _ hin, Call.bind_of_eq _ hinsert,
      Call.bind_of_eq _ hmap]
    exact ⟨_, rfl⟩

/-- A fault in an area at a page that is not mapped is served, if there is a
page for it and for each page table that is missing. -/
theorem doPgfault_some (sm : Manager) {i : Nat} {val : MmStruct} {vma : Mm.Vma}
    (h : Fit val.pgdir q s) (hmm : s.mms i = some val)
    (hpriv : val.smPriv = some .praListHead)
    (hvma : Mm.candidate val.toMmStruct addr = some vma)
    (hout : frameOf (s.lookup val.pgdir (slotOf (rounddown addr pgsize)))
      = none)
    (hroom : missing s val.pgdir (rounddown addr pgsize)
      < s.free.card + q.length) :
    ∃ t, doPgfault sm i addr s = some (true, t) := by
  have hfound : (val.found addr).pgdir = val.pgdir
      ∧ (val.found addr).smPriv = val.smPriv := by
    rw [found_eq]
    exact ⟨rfl, rfl⟩
  have hfit : Fit (val.found addr).pgdir q
      (cacheArea i (val.found addr) s) := by
    rw [hfound.1]
    refine ⟨cacheArea_paged h.paged _,
      cacheArea_ready h.ready hmm hfound.2 hfound.1, h.device, ?_⟩
    obtain ⟨m, hm⟩ := h.check
    obtain ⟨j, hj, hm⟩ := Option.bind_eq_some_iff.1 hm
    by_cases hji : j = i
    · refine ⟨val.found addr, Option.bind_eq_some_iff.2 ⟨j, hj, ?_⟩⟩
      rw [hji]
      exact Function.update_self _ _ _
    · refine ⟨m, Option.bind_eq_some_iff.2 ⟨j, hj, ?_⟩⟩
      show Function.update s.mms i _ j = _
      rw [Function.update_of_ne hji, hm]
  have hroom' : missing (cacheArea i (val.found addr) s)
      (val.found addr).pgdir (rounddown addr pgsize)
      < (cacheArea i (val.found addr) s).free.card + q.length := by
    rw [hfound.1]
    exact hroom
  have hout' : frameOf ((cacheArea i (val.found addr) s).lookup
      (val.found addr).pgdir (slotOf (rounddown addr pgsize))) = none := by
    rw [hfound.1]
    exact hout
  obtain ⟨s₁, hget⟩ := getPte_some sm hfit (Nat.le_of_lt hroom')
  obtain ⟨-, htable, q₁, hmoves⟩ := getPte_spec hfit.paged hfit.ready hget
  have hcount := hmoves.count
  obtain ⟨t, hresolve⟩ := resolveFault_some sm (faultPerm vma)
    (hfit.moves hmoves) (hfound.2.trans hpriv) htable
    (by rw [hmoves.still hout']; exact hout') (by omega)
  have hderef : derefMm (some i) s = some (val, s) := by
    rw [derefMm_eq, Option.bind_some, hmm]
    rfl
  have hcand : (Mm.findVma val.toMmStruct addr).1 = some vma := by
    rw [Mm.findVma_eq]
    exact hvma
  have hnot : ¬ addr < vma.vmStart :=
    Nat.not_lt.mpr (Mm.candidate_some hvma).1.1
  have hset : Call.modify (fun s : State M =>
      { s with mms := Function.update s.mms i (some (val.found addr)) }) s
        = some ((), cacheArea i (val.found addr) s) :=
    rfl
  refine ⟨t, ?_⟩
  unfold doPgfault
  rw [Call.bind_of_eq _ hderef, Call.bind_of_eq _ hset, hcand]
  dsimp only
  rw [if_neg hnot, Call.bind_of_eq _ hget, Call.bind_of_eq _ rfl,
    Call.bind_of_eq _ hresolve]
  rfl

end Ucore.Swap
