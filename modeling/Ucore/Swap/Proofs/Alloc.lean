/-
Allocation under paging: `alloc_page` takes a free page, after an eviction
where there is none, and `get_pte` adds the page tables that are missing.
-/
import Ucore.Swap.Proofs.Invariant

namespace Ucore.Swap

open Mm (Managed)

variable {M : PmmManager} {s t u : State M} {d n k : Nat} {x : Slot}
  {q q' q'' : List Nat} {p la : Nat} {sm : Manager} {mm : MmStruct}

-- ======================================================== alloc_page

/-- What `alloc_pages` needs of `check_mm_struct` to evict. -/
def Ready (d : Nat) (q : List Nat) (s : State M) : Prop :=
  ∀ m, s.checkMm.bind s.mms = some m →
    m.smPriv = some .praListHead ∧ (q ≠ [] → m.pgdir = d)

/-- A page in hand: allocated, on no queue and in no entry. -/
structure InHand (q : List Nat) (s : State M) (p : Nat) : Prop where
  notFree : p ∉ s.free
  notQueued : p ∉ q
  managed : Managed p

theorem Moves.ready (h : Moves d q s q' t n) (hr : Ready d q s) :
    Ready d q' t := by
  intro m hm
  rw [h.checkMm_eq, h.mms_eq] at hm
  obtain ⟨hpriv, hroot⟩ := hr m hm
  refine ⟨hpriv, fun hne => hroot fun heq => hne ?_⟩
  rw [heq] at h
  exact List.prefix_nil.1 h.prefix_of

theorem Moves.inHand (h : Moves d q s q' t n) (hp : InHand q s p) :
    InHand q' t p :=
  ⟨(h.out hp.notFree hp.notQueued).1, (h.out hp.notFree hp.notQueued).2,
    hp.managed⟩

/-- What an allocation of one page has done. -/
structure Taken (d : Nat) (q : List Nat) (s : State M) (p : Nat)
    (q' : List Nat) (t : State M) : Prop where
  moves : Moves d q s q' t 1
  hand : InHand q' t p
  origin : p ∈ s.free ∨ p ∈ q
  ref : t.ref p = 0
  dirs : t.dirs = s.dirs
  tables : t.tables = s.tables

/-- A free page is taken. -/
theorem take_taken {pmm : M.State} (h : Paged d q s)
    (halloc : M.allocPages s.pmm = some (p, pmm)) :
    Taken d q s p q { s with pmm := pmm } := by
  obtain ⟨hin, hfree⟩ := M.allocPages_spec s.pmm p pmm halloc
  have hfree' : ({ s with pmm := pmm } : State M).free = s.free.erase p :=
    hfree
  have hsub : ∀ {f}, f ∈ s.free.erase p → f ∈ s.free := Finset.mem_of_mem_erase
  have hq : p ∉ q := fun hp => h.held hp hin
  refine ⟨?_, ⟨?_, hq, h.managed (.inl hin)⟩, .inl hin, h.cleared hin, rfl,
    rfl⟩
  · refine
      { paged := ⟨h.queue, h.root, h.entry, h.mapped, ?_, ?_, ?_⟩
        prefix_of := List.prefix_refl q
        content := fun _ => rfl, mapped := id, still := fun _ => rfl
        valid := fun _ => rfl
        hasTable := id, fresh := ?_, ref_eq := fun _ _ => rfl
        mem_eq := fun _ _ => rfl, vaddr_eq := rfl, mms_eq := rfl
        checkMm_eq := rfl, count := ?_ }
    · intro f hf hin'
      exact h.held hf (hsub (hfree' ▸ hin'))
    · intro f hf
      exact h.managed (hf.imp_left fun hin' => hsub (hfree' ▸ hin'))
    · intro f hf
      exact h.cleared (hsub (hfree' ▸ hf))
    · intro f hf
      exact hf.imp_left fun hin' => hsub (hfree' ▸ hin')
    · have hcard : (s.free.erase p).card = s.free.card - 1 :=
        Finset.card_erase_of_mem hin
      have hpos : 0 < s.free.card := Finset.card_pos.mpr ⟨p, hin⟩
      rw [hfree', hcard]
      omega
  · rw [hfree']
    exact Finset.notMem_erase p s.free

theorem allocLoop_found {pmm : M.State} (n : Nat)
    (halloc : M.allocPages s.pmm = some (p, pmm)) :
    allocLoop sm (n + 1) s = some (p, { s with pmm := pmm }) := by
  unfold allocLoop
  rw [Call.bind_of_eq _ rfl]
  rw [halloc]
  rfl

theorem allocLoop_full (n : Nat) (halloc : M.allocPages s.pmm = none) :
    allocLoop sm (n + 1) s
      = (derefMm s.checkMm >>= fun mm =>
          swapOut sm mm 0 1 >>= fun _ => allocLoop sm n) s := by
  conv_lhs => unfold allocLoop
  rw [Call.bind_of_eq _ rfl]
  rw [halloc]

theorem derefMm_eq {m : Option Nat} : derefMm m s
    = (m.bind s.mms).map fun val => (val, s) := by
  unfold derefMm
  rw [Call.bind_of_eq _ rfl]
  cases m.bind s.mms <;> rfl

/-- One round of `swap_out` is `swap_out` with a count of one. -/
theorem swapOut_one : swapOut sm mm 0 1 s = swapOutOne sm mm 0 s := by
  show (swapOutOne sm mm 0 >>= fun _ => pure ()) s = _
  cases hone : swapOutOne sm mm 0 s with
  | none => exact Call.bind_of_none _ hone
  | some r =>
      obtain ⟨⟨⟩, t⟩ := r
      exact Call.bind_of_eq _ hone

/-- What a round of `swap_out` that returns has done. -/
theorem swapOutOne_moves (h : Paged d q s)
    (hpriv : mm.smPriv = some .praListHead) (hroot : q ≠ [] → mm.pgdir = d)
    (hcall : swapOutOne sm mm 0 s = some ((), t)) :
    t.free.Nonempty ∧ t.dirs = s.dirs ∧ t.tables = s.tables
      ∧ ∃ q', Moves d q s q' t 0 := by
  rcases List.eq_nil_or_concat q with rfl | ⟨q', p, rfl⟩
  · rw [swapOutOne_nil h.queue hpriv] at hcall
    cases hcall
  · rw [List.concat_eq_append] at h hroot ⊢
    have hd := hroot (by simp)
    subst hd
    rw [swapOutOne_eq h hpriv] at hcall
    split at hcall
    case isTrue hdev =>
        cases hcall
        have hlast : p ∈ q' ++ [p] :=
          List.mem_append_right q' List.mem_cons_self
        refine ⟨⟨p, ?_⟩, rfl, rfl, q', evict_moves h hdev⟩
        rw [evict_free (h.held hlast)]
        exact Finset.mem_insert_self p s.free
    case isFalse => cases hcall

/-- Rounds of `swap_out`. -/
theorem swapOut_moves (h : Paged d q s) (hpriv : mm.smPriv = some .praListHead)
    (hroot : q ≠ [] → mm.pgdir = d)
    (hcall : swapOut sm mm 0 n s = some ((), t)) :
    ∃ q', Moves d q s q' t 0 := by
  induction n generalizing q s with
  | zero =>
      obtain ⟨-, rfl⟩ := Call.pure_eq_some.1 hcall
      exact ⟨q, Moves.refl h⟩
  | succ n ih =>
      obtain ⟨⟨⟩, s₁, hone, hrest⟩ := Call.bind_eq_some.1 hcall
      obtain ⟨-, -, -, q₁, hmoves⟩ := swapOutOne_moves h hpriv hroot hone
      have hroot₁ : q₁ ≠ [] → mm.pgdir = d := by
        intro hne
        refine hroot fun heq => hne ?_
        have hpre := hmoves.prefix_of
        rw [heq] at hpre
        exact List.prefix_nil.1 hpre
      obtain ⟨q₂, hmoves'⟩ := ih hmoves.paged hroot₁ hrest
      exact ⟨q₂, hmoves.trans hmoves'⟩

/-- An allocation takes one page, free or evicted. -/
theorem allocPage_spec (h : Paged d q s) (hr : Ready d q s)
    (hcall : allocPage sm s = some (p, t)) :
    ∃ q', Taken d q s p q' t := by
  unfold allocPage at hcall
  cases halloc : M.allocPages s.pmm with
  | some r =>
      obtain ⟨p', pmm⟩ := r
      rw [allocLoop_found 1 halloc] at hcall
      cases hcall
      exact ⟨q, take_taken h halloc⟩
  | none =>
      rw [allocLoop_full 1 halloc, Call.bind_eq_some] at hcall
      obtain ⟨mm, s₁, hderef, hrest⟩ := hcall
      obtain ⟨⟨⟩, s₂, hout, hfound⟩ := Call.bind_eq_some.1 hrest
      rw [derefMm_eq, Option.map_eq_some_iff] at hderef
      obtain ⟨m, hm, heq⟩ := hderef
      cases heq
      obtain ⟨hpriv, hroot⟩ := hr mm hm
      rw [swapOut_one] at hout
      obtain ⟨hne, hdirs, htables, q₁, hmoves⟩ :=
        swapOutOne_moves h hpriv hroot hout
      cases halloc' : M.allocPages s₂.pmm with
      | none =>
          have hsome := M.allocPages_some s₂.pmm hne
          rw [halloc'] at hsome
          cases hsome
      | some r =>
          obtain ⟨p', pmm⟩ := r
          rw [allocLoop_found 0 halloc'] at hfound
          cases hfound
          have htaken := take_taken hmoves.paged halloc'
          have hall := hmoves.trans htaken.moves
          rw [Nat.zero_add] at hall
          exact ⟨q₁, hall, htaken.hand, hmoves.fresh htaken.origin, htaken.ref,
            hdirs, htables⟩

/-- Two rounds of the loop of `alloc_pages` are enough. -/
theorem allocLoop_two (h : Paged d q s) (hr : Ready d q s) (n : Nat) :
    allocLoop sm (n + 2) s = allocPage sm s := by
  unfold allocPage
  cases halloc : M.allocPages s.pmm with
  | some r => rw [allocLoop_found (n + 1) halloc, allocLoop_found 1 halloc]
  | none =>
      rw [allocLoop_full (n + 1) halloc, allocLoop_full 1 halloc]
      cases hm : s.checkMm.bind s.mms with
      | none =>
          have hderef : derefMm s.checkMm s = none := by
            rw [derefMm_eq, hm]
            rfl
          rw [Call.bind_of_none _ hderef, Call.bind_of_none _ hderef]
      | some m =>
          have hderef : derefMm s.checkMm s = some (m, s) := by
            rw [derefMm_eq, hm]
            rfl
          rw [Call.bind_of_eq _ hderef, Call.bind_of_eq _ hderef]
          cases hout : swapOut sm m 0 1 s with
          | none => rw [Call.bind_of_none _ hout, Call.bind_of_none _ hout]
          | some r =>
              obtain ⟨⟨⟩, t⟩ := r
              rw [Call.bind_of_eq _ hout, Call.bind_of_eq _ hout]
              rw [swapOut_one] at hout
              obtain ⟨hne, -⟩ := swapOutOne_moves h (hr m hm).1 (hr m hm).2 hout
              cases halloc' : M.allocPages t.pmm with
              | none =>
                  have hsome := M.allocPages_some t.pmm hne
                  rw [halloc'] at hsome
                  cases hsome
              | some r =>
                  obtain ⟨p', pmm⟩ := r
                  rw [allocLoop_found n halloc', allocLoop_found 0 halloc']

-- =========================================================== get_pte

/-- A change that no entry shows and that touches the count of one page. -/
structure Quiet (d page : Nat) (s t : State M) : Prop where
  lookup : ∀ d' x, t.lookup d' x = s.lookup d' x
  hasTable : ∀ {x}, s.HasTable d x → t.HasTable d x
  pmm : t.pmm = s.pmm
  links : t.links = s.links
  mem : t.mem = s.mem
  disk : t.disk = s.disk
  vaddr : t.praVaddr = s.praVaddr
  mms : t.mms = s.mms
  checkMm : t.checkMm = s.checkMm
  ref : ∀ f, f ≠ page → t.ref f = s.ref f

theorem Quiet.free (h : Quiet d p s t) : t.free = s.free :=
  congrArg M.freeSet h.pmm

theorem Quiet.paged (h : Quiet d p s t) (hp : p ∉ s.free)
    (hs : Paged d q s) : Paged d q t := by
  refine ⟨h.links ▸ hs.queue, ?_, ?_, ?_, ?_, ?_, ?_⟩
  · intro d' x hx
    exact hs.root (h.lookup d' x ▸ hx)
  · intro x hx
    unfold Resident
    rw [h.lookup] at hx ⊢
    rw [h.vaddr]
    exact hs.entry hx
  · intro f hf
    rw [h.lookup, h.vaddr]
    exact hs.mapped hf
  · intro f hf
    rw [h.free]
    exact hs.held hf
  · intro f hf
    rw [h.free] at hf
    exact hs.managed hf
  · intro f hf
    rw [h.free] at hf
    rw [h.ref f fun heq => hp (heq ▸ hf)]
    exact hs.cleared hf

theorem Quiet.content (h : Quiet d p s t) (x : Slot) :
    t.content d x = s.content d x := by
  unfold State.content
  rw [h.lookup, h.mem, h.disk]

/-- A quiet change of a page in hand adds to no move. -/
theorem Moves.quiet (h : Moves d q s q' t n) (hquiet : Quiet d p t u)
    (hp : p ∉ t.free) (horig : p ∈ s.free ∨ p ∈ q) :
    Moves d q s q' u n where
  paged := hquiet.paged hp h.paged
  prefix_of := h.prefix_of
  content hx := (hquiet.content _).trans (h.content hx)
  mapped hx := by
    rw [hquiet.lookup]
    exact h.mapped hx
  still hx := by
    rw [hquiet.lookup]
    exact h.still hx
  valid hx := by
    rw [hquiet.lookup] at hx ⊢
    exact h.valid hx
  hasTable hx := hquiet.hasTable (h.hasTable hx)
  fresh hf := h.fresh (hf.imp_left fun hin => hquiet.free ▸ hin)
  ref_eq {f} hfree hq := by
    have hne : f ≠ p := by
      intro heq
      rcases horig with hin | hin
      · exact hfree (heq ▸ hin)
      · exact hq (heq ▸ hin)
    rw [hquiet.ref f hne, h.ref_eq hfree hq]
  mem_eq hfree hq := (congrFun hquiet.mem _).trans (h.mem_eq hfree hq)
  vaddr_eq := hquiet.vaddr.trans h.vaddr_eq
  mms_eq := hquiet.mms.trans h.mms_eq
  checkMm_eq := hquiet.checkMm.trans h.checkMm_eq
  count := by
    rw [hquiet.free]
    exact h.count

theorem enterDir_quiet {d1 : Nat} (hnone : s.dirs d d1 = none) :
    Quiet d p s (enterDir d d1 p (setPageRef p 1 s)) where
  lookup d' x := lookup_enterDir (s := setPageRef p 1 s) hnone d' x
  hasTable hx := enterDir_hasTable (s := setPageRef p 1 s) hnone hx
  pmm := rfl
  links := rfl
  mem := rfl
  disk := rfl
  vaddr := rfl
  mms := rfl
  checkMm := rfl
  ref f hf := Function.update_of_ne hf _ _

theorem enterTable_quiet {d1 d0 : Nat} (hnone : s.tables d d1 d0 = none) :
    Quiet d p s (enterTable d d1 d0 p (setPageRef p 1 s)) where
  lookup d' x := lookup_enterTable (s := setPageRef p 1 s) hnone d' x
  hasTable hx := enterTable_hasTable (s := setPageRef p 1 s) hx
  pmm := rfl
  links := rfl
  mem := rfl
  disk := rfl
  vaddr := rfl
  mms := rfl
  checkMm := rfl
  ref f hf := Function.update_of_ne hf _ _

/-- The page tables `get_pte` has to allocate for an address. -/
def missing (s : State M) (d la : Nat) : Nat :=
  if (s.dirs d (pdx1 la)).isSome then
    if (s.tables d (pdx1 la) (pdx0 la)).isSome then 0 else 1
  else 2

theorem getDir_spec (h : Paged d q s) (hr : Ready d q s) {b : Bool}
    (hcall : getDir (allocPage sm) d la true s = some (b, t)) :
    b = true ∧ (t.dirs d (pdx1 la)).isSome
      ∧ ((s.dirs d (pdx1 la)).isSome → t = s)
      ∧ ((s.dirs d (pdx1 la)).isSome = false →
        t.tables d (pdx1 la) (pdx0 la) = none
          ∧ ∃ q', Moves d q s q' t 1) := by
  obtain ⟨s₀, s₁, hget, hbody⟩ := Call.bind_eq_some.1 hcall
  obtain ⟨rfl, rfl⟩ := Call.get_eq_some.1 hget
  cases hd : (s₁.dirs d (pdx1 la)).isSome with
  | true =>
      rw [hd, if_pos rfl] at hbody
      obtain ⟨rfl, rfl⟩ := Call.pure_eq_some.1 hbody
      exact ⟨rfl, hd, fun _ => rfl, fun h => by cases h⟩
  | false =>
      rw [hd, if_neg Bool.false_ne_true, if_pos rfl] at hbody
      obtain ⟨page, s₂, halloc, hbody⟩ := Call.bind_eq_some.1 hbody
      obtain ⟨⟨⟩, s₃, href, hbody⟩ := Call.bind_eq_some.1 hbody
      obtain ⟨⟨⟩, s₄, henter, hbody⟩ := Call.bind_eq_some.1 hbody
      obtain rfl := Call.modify_eq_some.1 href
      obtain rfl := Call.modify_eq_some.1 henter
      obtain ⟨rfl, rfl⟩ := Call.pure_eq_some.1 hbody
      obtain ⟨q', htaken⟩ := allocPage_spec h hr halloc
      have hnone : s₂.dirs d (pdx1 la) = none := by
        rw [htaken.dirs]
        exact Option.isSome_eq_false_iff.1 hd |> Option.isNone_iff_eq_none.1
      refine ⟨rfl, by simp [enterDir], (fun h => by cases h), fun _ => ⟨?_, q', ?_⟩⟩
      · simp [enterDir]
      · exact htaken.moves.quiet (enterDir_quiet hnone) htaken.hand.notFree
          htaken.origin

theorem getTable_spec (h : Paged d q s) (hr : Ready d q s) {b : Bool}
    (hcall : getTable (allocPage sm) d la true s = some (b, t)) :
    b = true ∧ t.dirs = s.dirs
      ∧ (t.tables d (pdx1 la) (pdx0 la)).isSome
      ∧ ((s.tables d (pdx1 la) (pdx0 la)).isSome → t = s)
      ∧ ((s.tables d (pdx1 la) (pdx0 la)).isSome = false →
        ∃ q', Moves d q s q' t 1) := by
  obtain ⟨s₀, s₁, hget, hbody⟩ := Call.bind_eq_some.1 hcall
  obtain ⟨rfl, rfl⟩ := Call.get_eq_some.1 hget
  cases ht : (s₁.tables d (pdx1 la) (pdx0 la)).isSome with
  | true =>
      rw [ht, if_pos rfl] at hbody
      obtain ⟨rfl, rfl⟩ := Call.pure_eq_some.1 hbody
      exact ⟨rfl, rfl, ht, fun _ => rfl, fun h => by cases h⟩
  | false =>
      rw [ht, if_neg Bool.false_ne_true, if_pos rfl] at hbody
      obtain ⟨page, s₂, halloc, hbody⟩ := Call.bind_eq_some.1 hbody
      obtain ⟨⟨⟩, s₃, href, hbody⟩ := Call.bind_eq_some.1 hbody
      obtain ⟨⟨⟩, s₄, henter, hbody⟩ := Call.bind_eq_some.1 hbody
      obtain rfl := Call.modify_eq_some.1 href
      obtain rfl := Call.modify_eq_some.1 henter
      obtain ⟨rfl, rfl⟩ := Call.pure_eq_some.1 hbody
      obtain ⟨q', htaken⟩ := allocPage_spec h hr halloc
      have hnone : s₂.tables d (pdx1 la) (pdx0 la) = none := by
        rw [htaken.tables]
        exact Option.isSome_eq_false_iff.1 ht |> Option.isNone_iff_eq_none.1
      refine ⟨rfl, htaken.dirs, by simp [enterTable], (fun h => by cases h),
        fun _ => ⟨q', ?_⟩⟩
      exact htaken.moves.quiet (enterTable_quiet hnone) htaken.hand.notFree
        htaken.origin

/-- `get_pte` with `create` gives the slot of the address, for which there
is a page table then. -/
theorem getPte_spec (h : Paged d q s) (hr : Ready d q s) {o : Option Slot}
    (hcall : getPte (allocPage sm) d la true s = some (o, t)) :
    o = some (slotOf la) ∧ t.HasTable d (slotOf la)
      ∧ ∃ q', Moves d q s q' t (missing s d la) := by
  obtain ⟨b, s₁, hdir, hcall⟩ := Call.bind_eq_some.1 hcall
  obtain ⟨rfl, hsome, hhad, hnew⟩ := getDir_spec h hr hdir
  rw [if_pos rfl] at hcall
  obtain ⟨b, s₂, htable, hcall⟩ := Call.bind_eq_some.1 hcall
  have hmoved : ∃ q₁, Moves d q s q₁ s₁
      (if (s.dirs d (pdx1 la)).isSome then 0 else 1) := by
    cases hd : (s.dirs d (pdx1 la)).isSome with
    | true =>
        obtain rfl := hhad hd
        exact ⟨q, Moves.refl h⟩
    | false => exact (hnew hd).2
  obtain ⟨q₁, hmoves⟩ := hmoved
  obtain ⟨rfl, hdirs, hsome', hhad', hnew'⟩ :=
    getTable_spec hmoves.paged (hmoves.ready hr) htable
  rw [if_pos rfl] at hcall
  obtain ⟨rfl, rfl⟩ := Call.pure_eq_some.1 hcall
  refine ⟨rfl, ⟨by rw [hdirs]; exact hsome, hsome'⟩, ?_⟩
  unfold missing
  cases ht : (s₁.tables d (pdx1 la) (pdx0 la)).isSome with
  | true =>
      obtain rfl := hhad' ht
      cases hd : (s.dirs d (pdx1 la)).isSome with
      | true =>
          obtain rfl := hhad hd
          rw [if_pos rfl, if_pos ht]
          exact ⟨q, Moves.refl h⟩
      | false =>
          rw [(hnew hd).1] at ht
          cases ht
  | false =>
      obtain ⟨q₂, hmoves'⟩ := hnew' ht
      have hall := hmoves.trans hmoves'
      cases hd : (s.dirs d (pdx1 la)).isSome with
      | true =>
          obtain rfl := hhad hd
          rw [hd] at hall
          rw [if_pos rfl, if_neg (by rw [ht]; exact Bool.false_ne_true)]
          exact ⟨q₂, hall⟩
      | false =>
          rw [hd] at hall
          exact ⟨q₂, hall⟩

end Ucore.Swap
