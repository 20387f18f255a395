/-
Demand paging preserves data: what a process stored is what it loads,
wherever the page was in between.

# The invariant

Beside `Paged`, `Holds` says that the contents of every page that was
stored to, in a frame or on the device, have the value stored last at its
place. Evictions, `swap_in` and faults keep the contents (`Moves`,
`Faulted`), so only a store has to be looked at.
-/
import Ucore.Swap.System
import Ucore.Swap.Proofs.Progress
import Ucore.Mm.Proofs.PageRefRun
import Mathlib.Data.List.Induction

namespace Ucore.Swap

open Mm (Managed Vma vmWrite)

variable {M : PmmManager} {s t u : State M} {d n mm : Nat} {q q' : List Nat}
  {x : Slot} {a b p v : Nat} {sm : Manager} {val : MmStruct}
  {vmas : List Vma}

-- ========================================================= addresses

/-- A canonical address is known by its slot and its offset. -/
theorem canonical_inj (ha : Canonical a) (hb : Canonical b)
    (hslot : slotOf a = slotOf b) (hoff : pgoff a = pgoff b) : a = b := by
  unfold slotOf at hslot
  rw [Prod.mk.injEq, Prod.mk.injEq, pdx1_eq, pdx1_eq, pdx0_eq, pdx0_eq, ptx_eq,
    ptx_eq] at hslot
  rw [pgoff_eq, pgoff_eq] at hoff
  unfold pgsize at hoff
  unfold Canonical at ha hb
  omega

/-- The page of an address has its slot. -/
theorem slotOf_rounddown (a : Nat) : slotOf (rounddown a pgsize) = slotOf a := by
  obtain ⟨h1, h0, ht⟩ := indices_of_page (rounddown_page a)
  unfold slotOf
  rw [h1, h0, ht]

-- ======================================================= last stores

/-- A later event decides the last store if it is one. -/
theorem lastStore_concat (a : Nat) (es : List Event) (e : Event) :
    lastStore a (es ++ [e]) = (e.stored a).or (lastStore a es) := by
  induction es with
  | nil =>
      show (none : Option Nat).or (e.stored a) = (e.stored a).or none
      rw [Option.none_or, Option.or_none]
  | cons f es ih =>
      show (lastStore a (es ++ [e])).or (f.stored a)
        = (e.stored a).or ((lastStore a es).or (f.stored a))
      rw [ih, Option.or_assoc]

-- ===================================================== the invariant

/-- One `mm_struct`, the one that `check_mm_struct` points to. -/
structure Single (mm : Nat) (d : Nat) (vmas : List Vma) (val : MmStruct)
    (s : State M) : Prop where
  mms : s.mms mm = some val
  check : s.checkMm = some mm
  root : val.pgdir = d
  priv : val.smPriv = some .praListHead
  areas : val.mmapList = vmas
  cache : ∀ {vma}, val.mmapCache = some vma → vma ∈ vmas

/-- The values stored last are in the pages' contents. -/
def Holds (d : Nat) (L : Nat → Option Nat) (s : State M) : Prop :=
  ∀ a v, L a = some v → Canonical a
    ∧ ∃ c, s.content d (slotOf a) = some c ∧ c (pgoff a) = v

theorem Single.ready (h : Single mm d vmas val s) : Ready d q s := by
  intro m hm
  rw [h.check, Option.bind_some, h.mms] at hm
  cases hm
  exact ⟨h.priv, fun _ => h.root⟩

theorem Single.congr (h : Single mm d vmas val s) (hmms : t.mms = s.mms)
    (hcheck : t.checkMm = s.checkMm) : Single mm d vmas val t :=
  ⟨hmms ▸ h.mms, hcheck.trans h.check, h.root, h.priv, h.areas, h.cache⟩

theorem content_ne (h : s.content d x ≠ none) : s.lookup d x ≠ 0 := by
  intro hzero
  rw [State.content, if_pos hzero] at h
  exact h rfl

theorem Holds.congr {L : Nat → Option Nat} (h : Holds d L s)
    (hcontent : ∀ {x}, s.lookup d x ≠ 0 → t.content d x = s.content d x) :
    Holds d L t := by
  intro a v hv
  obtain ⟨hcan, c, hc, hcv⟩ := h a v hv
  refine ⟨hcan, c, ?_, hcv⟩
  rw [hcontent (content_ne (hc ▸ (fun h => by cases h)))]
  exact hc

/-- A load reads the contents. -/
theorem load_eq {c : Nat → Nat} (hc : s.content d (slotOf a) = some c)
    (hload : load s d a = some v) : c (pgoff a) = v := by
  unfold load at hload
  split at hload
  case isFalse => cases hload
  case isTrue =>
      obtain ⟨p, hframe, hmem⟩ := Option.map_eq_some_iff.1 hload
      unfold State.content at hc
      split at hc
      case isTrue => cases hc
      case isFalse =>
          rw [hframe] at hc
          cases hc
          exact hmem

/-- The contents of a page, by the frame that its entry has. -/
theorem content_eq (s : State M) (d : Nat) (x : Slot) : s.content d x
    = if s.lookup d x = 0 then none
      else some ((frameOf (s.lookup d x)).elim
        (s.disk (s.lookup d x >>> 8)) s.mem) := by
  unfold State.content
  cases frameOf (s.lookup d x) with
  | none => rfl
  | some f => rfl

/-- A store changes the contents of its page at its offset. -/
theorem store_content (h : Paged d q s) (hstore : store s d a v = some t) :
    Canonical a ∧ Paged d q t ∧ t.mms = s.mms ∧ t.checkMm = s.checkMm
      ∧ t.praVaddr = s.praVaddr ∧ t.lookup = s.lookup
      ∧ ∃ c, s.content d (slotOf a) = some c ∧ ∀ x, t.content d x
        = if x = slotOf a then some (Function.update c (pgoff a) v)
          else s.content d x := by
  unfold store at hstore
  split at hstore
  case isFalse => cases hstore
  case isTrue hperm =>
      obtain ⟨p, hframe, rfl⟩ := Option.map_eq_some_iff.1 hstore
      have hne : s.lookup d (slotOf a) ≠ 0 := by
        intro hzero
        rw [hzero, frameOf_zero] at hframe
        cases hframe
      refine ⟨hperm.1, ⟨h.queue, h.root, h.entry, h.mapped, h.held, h.managed,
        h.cleared⟩, rfl, rfl, rfl, rfl, s.mem p, ?_, ?_⟩
      · rw [State.content, if_neg hne, hframe]
      · intro x
        let frame := Function.update (s.mem p) (pgoff a) v
        show State.content
          { s with mem := Function.update s.mem p frame } d x = _
        rw [content_eq]
        show (if s.lookup d x = 0 then none
          else some ((frameOf (s.lookup d x)).elim _
            (Function.update s.mem p _))) = _
        by_cases hslot : x = slotOf a
        · rw [if_pos hslot, hslot, if_neg hne, hframe]
          show some (Function.update s.mem p _ p) = _
          rw [Function.update_self]
        · rw [if_neg hslot, State.content]
          by_cases hzero : s.lookup d x = 0
          · rw [if_pos hzero, if_pos hzero]
          · rw [if_neg hzero, if_neg hzero]
            cases hf : frameOf (s.lookup d x) with
            | none => rfl
            | some f =>
                have hfp : f ≠ p := fun heq =>
                  hslot (h.slot_inj hf (heq.symm ▸ hframe))
                show some (Function.update s.mem p _ f) = some (s.mem f)
                rw [Function.update_of_ne hfp]

theorem Holds.store {L : Nat → Option Nat} (h : Holds d L s)
    (hp : Paged d q s) (hstore : store s d a v = some t) :
    Holds d (fun b => ((Event.store a v).stored b).or (L b)) t := by
  obtain ⟨hcan, -, -, -, -, -, c, hc, hcontent⟩ := store_content hp hstore
  intro b w hw
  by_cases hab : a = b
  · subst hab
    have hvw : v = w := by
      simpa [Event.stored] using hw
    subst hvw
    exact ⟨hcan, _, (hcontent _).trans (if_pos rfl), Function.update_self _ _ _⟩
  · have hLb : L b = some w := by
      simpa [Event.stored, hab] using hw
    obtain ⟨hcanb, c', hc', hcw⟩ := h b w hLb
    by_cases hslot : slotOf b = slotOf a
    · have hoff : pgoff b ≠ pgoff a := fun hoff =>
        hab (canonical_inj hcan hcanb hslot.symm hoff.symm)
      rw [hslot, hc] at hc'
      cases hc'
      refine ⟨hcanb, _, (hcontent _).trans (if_pos hslot), ?_⟩
      rw [Function.update_of_ne hoff]
      exact hcw
    · exact ⟨hcanb, c', ((hcontent _).trans (if_neg hslot)).trans hc', hcw⟩

theorem Holds.other {L : Nat → Option Nat} {e : Event} (h : Holds d L s)
    (he : ∀ b, e.stored b = none) :
    Holds d (fun b => (e.stored b).or (L b)) s := by
  intro b w hw
  have hw' : (e.stored b).or (L b) = some w := hw
  rw [he, Option.none_or] at hw'
  exact h b w hw'

-- ========================================================= the steps

/-- A fault that was served leaves the one `mm_struct`, with another area
cached. -/
theorem Single.faulted {la perm : Nat} (h : Single mm d vmas val s)
    (hf : Faulted d q (cacheArea mm (val.found a) s) la perm q' t) :
    Single mm d vmas (val.found a) t := by
  have hmms : t.mms mm = some (val.found a) := by
    rw [hf.mms_eq]
    exact Function.update_self _ _ _
  refine ⟨hmms, hf.checkMm_eq.trans h.check, ?_, ?_, ?_, ?_⟩
  · rw [found_eq]
    exact h.root
  · rw [found_eq]
    exact h.priv
  · rw [found_eq]
    exact h.areas
  · intro vma hvma
    rw [found_eq] at hvma
    have hvma' : (Mm.candidate val.toMmStruct a).or val.mmapCache
        = some vma := hvma
    cases hc : Mm.candidate val.toMmStruct a with
    | none =>
        rw [hc, Option.none_or] at hvma'
        exact h.cache hvma'
    | some v =>
        rw [hc, Option.some_or, Option.some.injEq] at hvma'
        subst hvma'
        rcases (Mm.candidate_some hc).2 with hin | hin
        · exact h.areas ▸ hin
        · exact h.cache hin

/-- What a fault that was served did. -/
theorem Single.fault (h : Single mm d vmas val s) (hp : Paged d q s)
    (hcall : doPgfault sm mm a s = some (true, t)) :
    ∃ vma ∈ vmas, vma.Has a ∧ Single mm d vmas (val.found a) t
      ∧ ∃ q', Faulted d q (cacheArea mm (val.found a) s) (rounddown a pgsize)
        (faultPerm vma) q' t := by
  rcases doPgfault_spec hp h.ready h.mms h.priv (fun _ => h.root) hcall with
    ⟨-, hfalse, -⟩ | ⟨vma, q', hc, -, hfault⟩
  · cases hfalse
  · have hin : vma ∈ vmas := by
      rcases (Mm.candidate_some hc).2 with hin | hin
      · exact h.areas ▸ hin
      · exact h.cache hin
    exact ⟨vma, hin, (Mm.candidate_some hc).1, h.faulted hfault, q', hfault⟩

/-- What every step of the process preserves. -/
theorem UserStep.holds {L : Nat → Option Nat} {e : Event}
    (h : Single mm d vmas val s) (hp : Paged d q s) (hL : Holds d L s)
    (hstep : UserStep sm mm s e t) :
    ∃ val' q', Single mm d vmas val' t ∧ Paged d q' t
      ∧ Holds d (fun b => (e.stored b).or (L b)) t := by
  obtain ⟨m, hm, hstep⟩ := hstep
  rw [h.mms, Option.some.injEq] at hm
  subst hm
  cases e with
  | load a v =>
      obtain ⟨-, rfl⟩ := hstep
      exact ⟨val, q, h, hp, hL.other fun _ => rfl⟩
  | store a v =>
      have hstore : store s d a v = some t := h.root ▸ hstep
      obtain ⟨-, hpaged, hmms, hcheck, -⟩ := store_content hp hstore
      exact ⟨val, q, h.congr hmms hcheck, hpaged, hL.store hp hstore⟩
  | fault a =>
      obtain ⟨vma, -, -, hsingle, q', hf⟩ := h.fault hp hstep.2
      refine ⟨val.found a, q', hsingle, hf.paged, ?_⟩
      exact (hL.congr fun hx => hf.content hx).other fun _ => rfl
  | swapOut n =>
      obtain ⟨q', hmoves⟩ := swapOut_moves hp h.priv (fun _ => h.root) hstep
      refine ⟨val, q', h.congr hmoves.mms_eq hmoves.checkMm_eq, hmoves.paged, ?_⟩
      exact (hL.congr hmoves.content).other fun _ => rfl
  | swapIn a =>
      obtain ⟨p, hin⟩ := hstep
      obtain ⟨-, -, -, q', htaken⟩ := swapIn_taken hp h.ready hin
      refine ⟨val, q', h.congr htaken.moves.mms_eq htaken.moves.checkMm_eq,
        htaken.moves.paged, ?_⟩
      exact (hL.congr htaken.moves.content).other fun _ => rfl

-- ========================================================== progress

/-- Every area is writable and lies in the range of the swap device. -/
def Writable (vmas : List Vma) : Prop :=
  ∀ vma ∈ vmas, hasFlag vma.vmFlags vmWrite
    ∧ vma.vmEnd ≤ (maxSwapOffset - 1) * pgsize

/-- Queued pages lie in the range of the device, and a mapped page permits
loads and stores. -/
structure Served (d : Nat) (q : List Nat) (s : State M) : Prop where
  device : ∀ {p}, p ∈ q → OnDevice (s.praVaddr p)
  flags : ∀ {x}, frameOf (s.lookup d x) ≠ none →
    hasFlag (s.lookup d x) pteU ∧ hasFlag (s.lookup d x) pteR
      ∧ hasFlag (s.lookup d x) pteW

theorem Served.moves (h : Served d q s) (hm : Moves d q s q' t n) :
    Served d q' t where
  device hp := by
    rw [hm.vaddr_eq]
    exact h.device (hm.prefix_of.subset hp)
  flags hx := by
    have heq := hm.valid hx
    rw [heq] at hx ⊢
    exact h.flags hx

/-- The flags of a page in a writable area. -/
theorem flags_writable {vma : Vma} (hw : hasFlag vma.vmFlags vmWrite) :
    hasFlag (pteCreate p (pteV ||| faultPerm vma)) pteU
      ∧ hasFlag (pteCreate p (pteV ||| faultPerm vma)) pteR
      ∧ hasFlag (pteCreate p (pteV ||| faultPerm vma)) pteW := by
  unfold faultPerm
  rw [if_pos hw, hasFlag_pteU, hasFlag_pteR, hasFlag_pteW,
    testBit_pteCreate (by decide) (by decide),
    testBit_pteCreate (by decide) (by decide),
    testBit_pteCreate (by decide) (by decide)]
  decide

/-- An address in a writable area lies in the range of the device. -/
theorem Writable.onDevice (h : Writable vmas) {vma : Vma} (hin : vma ∈ vmas)
    (hhas : vma.Has a) : OnDevice (rounddown a pgsize) ∧ Canonical a := by
  have hend := (h vma hin).2
  have hlt := hhas.2
  have hmax : maxSwapOffset = 7 := rfl
  rw [hmax] at hend
  unfold OnDevice Canonical
  rw [rounddown_page, hmax]
  unfold pgsize at *
  omega

theorem Served.faulted {vma : Vma} (h : Served d q s) (hw : Writable vmas)
    (hin : vma ∈ vmas) (hhas : vma.Has a)
    (hf : Faulted d q s (rounddown a pgsize) (faultPerm vma) q' t) :
    Served d q' t where
  device hp := by
    rcases hf.vaddr hp with hla | ⟨hq, heq⟩
    · rw [hla]
      exact (hw.onDevice hin hhas).1
    · rw [heq]
      exact h.device hq
  flags {x} hx := by
    by_cases hslot : x = slotOf (rounddown a pgsize)
    · obtain ⟨p, hp, -⟩ := hf.entry
      rw [hslot, hp]
      exact flags_writable (hw vma hin).1
    · have heq := hf.valid hslot hx
      rw [heq] at hx ⊢
      exact h.flags hx

theorem UserStep.served {e : Event} (h : Single mm d vmas val s)
    (hp : Paged d q s) (hs : Served d q s) (hw : Writable vmas)
    (hstep : UserStep sm mm s e t) : ∀ {q'}, Paged d q' t → Served d q' t := by
  intro r hr
  suffices hsome : ∃ q', Paged d q' t ∧ Served d q' t by
    obtain ⟨q', hq', hserved⟩ := hsome
    obtain rfl := hq'.queue.unique hr.queue
    exact hserved
  obtain ⟨m, hm, hstep⟩ := hstep
  rw [h.mms, Option.some.injEq] at hm
  subst hm
  cases e with
  | load a v =>
      obtain ⟨-, rfl⟩ := hstep
      exact ⟨q, hp, hs⟩
  | store a v =>
      have hstore : store s d a v = some t := h.root ▸ hstep
      obtain ⟨-, hpaged, -, -, hvaddr, hlookup, -⟩ := store_content hp hstore
      refine ⟨q, hpaged, ?_, ?_⟩
      · intro p hpq
        rw [hvaddr]
        exact hs.device hpq
      · intro x hx
        rw [hlookup] at hx ⊢
        exact hs.flags hx
  | fault a =>
      obtain ⟨vma, hin, hhas, -, q', hf⟩ := h.fault hp hstep.2
      have hs' : Served d q (cacheArea mm (val.found a) s) :=
        ⟨hs.device, hs.flags⟩
      exact ⟨q', hf.paged, hs'.faulted hw hin hhas hf⟩
  | swapOut n =>
      obtain ⟨q', hmoves⟩ := swapOut_moves hp h.priv (fun _ => h.root) hstep
      exact ⟨q', hmoves.paged, hs.moves hmoves⟩
  | swapIn a =>
      obtain ⟨p, hin⟩ := hstep
      obtain ⟨-, -, -, q', htaken⟩ := swapIn_taken hp h.ready hin
      exact ⟨q', htaken.moves.paged, hs.moves htaken.moves⟩

/-- There is a page for the fault and for each missing page table, free or
on the queue. -/
def Room (s : State M) (d a : Nat) : Prop :=
  ∀ q, Queue s.links q →
    missing s d (rounddown a pgsize) < s.free.card + q.length

/-- An access in a writable area is permitted, or the fault is served and
then it is. -/
theorem Single.access (h : Single mm d vmas val s) (hp : Paged d q s)
    (hs : Served d q s) (hw : Writable vmas) {vma : Vma} (hin : vma ∈ vmas)
    (hhas : vma.Has a) (hroom : Room s d a) :
    (Permits s d a pteR ∧ Permits s d a pteW)
      ∨ ∃ t, doPgfault sm mm a s = some (true, t) ∧ Permits t d a pteR
        ∧ Permits t d a pteW := by
  have hcan := (hw.onDevice hin hhas).2
  by_cases hout : frameOf (s.lookup d (slotOf a)) = none
  · obtain ⟨v, hc⟩ : ∃ v, Mm.candidate val.toMmStruct a = some v := by
      cases hc : Mm.candidate val.toMmStruct a with
      | none => exact absurd hhas (Mm.candidate_none hc vma (h.areas ▸ hin))
      | some v => exact ⟨v, rfl⟩
    have hroot := h.root
    subst hroot
    have hfit : Fit val.pgdir q s := by
      refine ⟨hp, h.ready, hs.device, val, ?_⟩
      rw [h.check, Option.bind_some, h.mms]
    obtain ⟨t, hcall⟩ := doPgfault_some sm hfit h.mms h.priv hc
      (by rw [slotOf_rounddown]; exact hout) (hroom q hp.queue)
    refine .inr ⟨t, hcall, ?_⟩
    obtain ⟨v', hin', -, -, q', hf⟩ := h.fault hp hcall
    obtain ⟨p, hentry, hpm⟩ := hf.entry
    rw [slotOf_rounddown] at hentry
    obtain ⟨hu, hr, hwr⟩ := flags_writable (p := p) (hw v' hin').1
    have hv : hasFlag (pteCreate p (pteV ||| faultPerm v')) pteV :=
      hasFlag_pteCreate (pteV_or_lt (faultPerm_lt v'))
    unfold Permits
    rw [hentry]
    exact ⟨⟨hcan, hv, hu, hr⟩, hcan, hv, hu, hwr⟩
  · obtain ⟨hu, hr, hwr⟩ := hs.flags hout
    have hv : hasFlag (s.lookup d (slotOf a)) pteV := by
      by_contra hno
      exact hout (frameOf_eq_none_iff.mpr hno)
    exact .inl ⟨⟨hcan, hv, hu, hr⟩, hcan, hv, hu, hwr⟩

-- ============================================================== runs

/-- A process before its first access: one `mm_struct`, whose writable areas
lie in the range of the swap device, with empty page tables and an empty
queue. -/
structure FirstAccess (mm : Nat) (val : MmStruct) (s : State M) : Prop where
  single : Single mm val.pgdir val.mmapList val s
  range : ∀ vma ∈ val.mmapList, hasFlag vma.vmFlags vmWrite →
    vma.vmEnd ≤ (maxSwapOffset - 1) * pgsize
  queue : Queue s.links []
  empty : ∀ pgdir x, s.lookup pgdir x = 0
  free : ∀ p ∈ s.free, Managed p ∧ s.ref p = 0

theorem FirstAccess.paged (h : FirstAccess mm val s) :
    Paged val.pgdir [] s := by
  refine ⟨h.queue, fun hx => absurd (h.empty _ _) hx,
    fun hx => absurd (h.empty _ _) hx, ?_, ?_, ?_, fun hp => (h.free _ hp).2⟩
  · intro p hp
    cases hp
  · intro p hp
    cases hp
  · intro p hp
    rcases hp with hp | hp
    · exact (h.free p hp).1
    · cases hp

/-- The invariant over a run that starts at a process's first access. -/
theorem FirstAccess.run {es : List Event} (h : FirstAccess mm val s)
    (hrun : Run (UserStep sm mm) s es t) :
    ∃ val' q, Single mm val.pgdir val.mmapList val' t ∧ Paged val.pgdir q t
      ∧ Holds val.pgdir (fun b => lastStore b es) t
      ∧ (Writable val.mmapList → Served val.pgdir q t) := by
  induction es using List.reverseRecOn generalizing t with
  | nil =>
      cases hrun
      refine ⟨val, [], h.single, h.paged, fun a v hv => ?_, fun _ => ?_⟩
      · cases hv
      · refine ⟨fun hp => ?_, fun hx => ?_⟩
        · cases hp
        · rw [h.empty, frameOf_zero] at hx
          exact absurd rfl hx
  | append_singleton es e ih =>
      obtain ⟨u, hfirst, hlast⟩ := hrun.of_concat
      obtain ⟨val₁, q₁, hsingle, hpaged, hholds, hserved⟩ := ih hfirst
      obtain ⟨val₂, q₂, hsingle', hpaged', hholds'⟩ :=
        hlast.holds hsingle hpaged hholds
      refine ⟨val₂, q₂, hsingle', hpaged', ?_, ?_⟩
      · intro a v hv
        have hv' : lastStore a (es ++ [e]) = some v := hv
        rw [lastStore_concat] at hv'
        exact hholds' a v hv'
      · intro hw
        exact hlast.served hsingle hpaged (hserved hw) hw hpaged'

/-- Demand paging preserves data. After any accesses, faults, evictions and
`swap_in`s, a load of an address that was stored to gives the value stored
last; and where every area is writable, an access to an area is permitted or
its fault is served, as long as there is a page to evict when none is free. -/
theorem loads_last_stored {es : List Event} (h : FirstAccess mm val s)
    (hrun : Run (UserStep .lru mm) s es t) :
    (∀ a v w u, lastStore a es = some v →
      UserStep .lru mm t (.load a w) u → w = v)
    ∧ ((∀ vma ∈ val.mmapList, hasFlag vma.vmFlags vmWrite) →
      ∀ vma ∈ val.mmapList, ∀ a, vma.Has a → Room t val.pgdir a →
      (Permits t val.pgdir a pteR ∧ Permits t val.pgdir a pteW)
        ∨ ∃ u, doPgfault .lru mm a t = some (true, u)
          ∧ Permits u val.pgdir a pteR ∧ Permits u val.pgdir a pteW) := by
  obtain ⟨val', q, hsingle, hpaged, hholds, hserved⟩ := h.run hrun
  constructor
  · intro a v w u hv hload
    obtain ⟨m, hm, hload, -⟩ := hload
    rw [hsingle.mms, Option.some.injEq] at hm
    subst hm
    obtain ⟨-, c, hc, hcv⟩ := hholds a v hv
    rw [hsingle.root] at hload
    rw [← hcv, load_eq hc hload]
  · intro hflags vma hin a hhas hroom
    have hw : Writable val.mmapList := fun v hv =>
      ⟨hflags v hv, h.range v hv (hflags v hv)⟩
    exact hsingle.access hpaged (hserved hw) hw hin hhas hroom

-- ============================================================= a run

/-- Eight free pages and a process with the area of `check_swap`. -/
def process : State Mm.lowestFirst where
  pmm := (List.range 8).map (0x80301 + ·)
  ref := fun _ => 0
  praVaddr := fun _ => 0
  links := ⟨fun _ => .praListHead, fun _ => .praListHead⟩
  mem := fun _ _ => 0
  disk := fun _ _ => 0
  dirs := fun _ _ => none
  tables := fun _ _ _ => none
  pte := fun _ _ => 0
  mms := fun i => if i = 0x80300 then some
    { mmapList := [⟨0x1000, 0x6000, Mm.vmRead ||| vmWrite⟩]
      mmapCache := none, pgdir := 1, mapCount := 1, mmCount := 0
      smPriv := some .praListHead } else none
  checkMm := some 0x80300

/-- A page is stored to, goes to the device and comes back. -/
def roundTrip : List Event :=
  [.fault 0x1004, .store 0x1004 7, .swapOut 1, .fault 0x1004]

/-- The value that was stored is loaded. -/
theorem loads_last_stored_once : ∃ t,
    Run (UserStep .lru 0x80300) process roundTrip t
      ∧ load t 1 0x1004 = some 7
      ∧ ∀ w u, UserStep .lru 0x80300 t (.load 0x1004 w) u → w = 7 := by
  obtain ⟨t, hplay⟩ :
      ∃ t, play .lru 0x80300 roundTrip process = some t := by
    have hsome : (play .lru 0x80300 roundTrip process).isSome = true := by
      decide +kernel
    exact Option.isSome_iff_exists.1 hsome
  have hload : ((play .lru 0x80300 roundTrip process).bind
      fun t => load t 1 0x1004) = some 7 := by
    decide +kernel
  rw [hplay, Option.bind_some] at hload
  have hfirst : FirstAccess 0x80300
      { mmapList := [⟨0x1000, 0x6000, Mm.vmRead ||| vmWrite⟩]
        mmapCache := none, pgdir := 1, mapCount := 1, mmCount := 0
        smPriv := some .praListHead } process := by
    refine ⟨⟨rfl, rfl, rfl, rfl, rfl, fun h => by cases h⟩, by decide,
      Ring.isRing_nil.mpr ⟨rfl, rfl⟩, fun pgdir x => if_neg fun h => ?_, ?_⟩
    · exact Bool.noConfusion h.1
    · intro p hp
      have hfree : process.free
          = ((List.range 8).map (0x80301 + ·)).toFinset := rfl
      rw [hfree] at hp
      simp only [List.mem_toFinset, List.mem_map, List.mem_range] at hp
      obtain ⟨i, hi, rfl⟩ := hp
      refine ⟨?_, rfl⟩
      unfold Managed nbase npage
      omega
  have hrun := run_of_play hplay
  refine ⟨t, hrun, hload, fun w u hstep => ?_⟩
  exact (loads_last_stored hfirst hrun).1 0x1004 7 w u (by decide) hstep

end Ucore.Swap
