/-
What `load_icode` makes of a well-formed image.

After the loop over the program headers the stack is mapped, below which all
segments lie, so that they stay as they are. `InMemory` says what the new
program finds in its memory: the bytes of its segments, in pages of its own
with the permissions of their segments.
-/
import Ucore.Exec.Proofs.LoadIcode
import Ucore.Mm.Proofs.PageRefRun

namespace Ucore.Exec

open Mm

variable {M : PmmManager} {roots : Finset Nat} {lost : Set Nat}
  {r : Nat} {s s₀ : Machine M} {l l' : Load M} {image : Image}
  {K : Kmalloc M}

-- ========================================================= the stack

/-- The range of the stack's area. -/
def stackRange : Nat → Prop := InRange (ustacktop - ustacksize) ustacktop

theorem not_stack {va : Nat} (hva : va < ustacktop - ustacksize) :
    ¬ SlotAt r stackRange (slotOf r va) := by
  intro hx
  obtain ⟨b, ⟨hb1, hb2⟩, heq⟩ := hx
  have htop : ustacktop - ustacksize = 2146435072 := rfl
  apply slotOf_ne _ hb2 _ heq
  · exact Nat.lt_of_lt_of_le hva (Nat.sub_le _ _)
  · unfold pgsize
    omega

/-- A page of the stack. -/
theorem stackPage_spec {la : Nat} (h : RefInv roots lost noHold s)
    (hr : r ∈ roots) (hla : la < usertop)
    (hempty : leafAt roots s (slotOf r la) = none) :
    (∃ s', stackPage r la s = .ok s'
        ∧ Grows roots lost (· = slotOf r la) s s'
        ∧ s.free.card ≤ s'.free.card + 3)
      ∨ stackPage r la s = .error .stack ∧ s.free.card < 3 := by
  have hperm : pteUser < 2 ^ 10 := by decide
  obtain ⟨o, s', hrun, hgrows, hok, hnull⟩ :=
    pgdirAllocPage_spec h hr (pdx1_user hla) hperm hempty
  unfold stackPage
  rw [hrun]
  cases o with
  | none => exact Or.inr ⟨rfl, (hnull rfl).2⟩
  | some page => exact Or.inl ⟨s', rfl, hgrows, (hok page rfl).2.2⟩

/-- Pages of the stack, one after the other. -/
theorem stackPages_spec (hr : r ∈ roots) :
    ∀ {ks : List Nat} {s : Machine M}, RefInv roots lost noHold s →
      ks.Nodup → (∀ k ∈ ks, 0 < k ∧ k ≤ 256
        ∧ leafAt roots s (slotOf r (ustacktop - k * pgsize)) = none) →
      (∃ s', ks.foldlM
            (fun s k => stackPage r (ustacktop - k * pgsize) s) s = .ok s'
          ∧ Grows roots lost (SlotAt r stackRange) s s')
        ∨ ks.foldlM (fun s k => stackPage r (ustacktop - k * pgsize) s) s
            = .error .stack ∧ s.free.card < 3 * ks.length := by
  intro ks
  induction ks with
  | nil =>
      intro s h _ _
      exact Or.inl ⟨s, rfl, Grows.refl h⟩
  | cons k ks ih =>
      intro s h hnodup hks
      obtain ⟨hk, hnodup⟩ := List.nodup_cons.mp hnodup
      obtain ⟨hpos, hle, hempty⟩ := hks k List.mem_cons_self
      have hbottom : ustacktop - ustacksize = 2147483648 - 256 * 4096 := rfl
      have haddr : ∀ j, ustacktop - j * pgsize = 2147483648 - j * 4096 :=
        fun _ => rfl
      have huser : ∀ {j}, 0 < j → ustacktop - j * pgsize < usertop := by
        intro j hj
        rw [haddr]
        unfold usertop
        omega
      rw [List.foldlM_cons, List.length_cons]
      rcases stackPage_spec h hr (huser hpos) hempty with
        ⟨s₁, hrun, hgrows, hcard⟩ | ⟨hrun, hcard⟩
      · have hrest : ∀ k' ∈ ks, 0 < k' ∧ k' ≤ 256
            ∧ leafAt roots s₁ (slotOf r (ustacktop - k' * pgsize)) = none := by
          intro k' hk'
          obtain ⟨hpos', hle', hempty'⟩ := hks k' (List.mem_cons_of_mem _ hk')
          refine ⟨hpos', hle', ?_⟩
          rw [hgrows.leaf, hempty']
          have hne : k' ≠ k := fun heq => hk (heq ▸ hk')
          apply slotOf_ne (huser hpos') (huser hpos)
          rw [haddr, haddr]
          unfold pgsize
          omega
        have hwide : Grows roots lost (SlotAt r stackRange) s s₁ := by
          apply hgrows.weaken
          intro x hx
          refine ⟨_, ⟨?_, huser hpos⟩, hx⟩
          rw [hbottom, haddr]
          omega
        rw [hrun]
        rcases ih hgrows.inv hnodup hrest with
          ⟨s', hrun', hgrows'⟩ | ⟨hrun', hcard'⟩
        · exact Or.inl ⟨s', hrun', hwide.trans hgrows'⟩
        · exact Or.inr ⟨hrun', by omega⟩
      · rw [hrun]
        exact Or.inr ⟨rfl, by omega⟩


-- ======================================================= the purpose

/-- The byte a program finds at an address. -/
def userByte (s : Machine M) (pgdir va : Nat) : Option Nat :=
  (lookup s pgdir va).map fun e => byteOf (s.mem e.1) (va % pgsize)

/-- The flags of an entry give the user what `p_flags` say; what may be
written may be read. -/
def Permits (pFlags flags : Nat) : Prop :=
  hasFlag flags pteV ∧ hasFlag flags pteU
    ∧ (hasFlag flags pteR ↔ hasFlag pFlags elfPfR ∨ hasFlag pFlags elfPfW)
    ∧ (hasFlag flags pteW ↔ hasFlag pFlags elfPfW)
    ∧ (hasFlag flags pteX ↔ hasFlag pFlags elfPfX)

/-- The segments of an image are in memory below `pgdir`: their bytes are
those of the file, then zeros. Each page of a segment was allocated once, in
the order of the file, from the pages free in `s`, and is mapped with the
permissions of the segment. -/
structure InMemory (image : Image) (s s' : Machine M) (pgdir : Nat)
    (placed : List (Nat × Nat)) : Prop where
  bytes : ∀ ph ∈ image.segments, ∀ i < ph.pMemsz,
    userByte s' pgdir (ph.pVa + i) = some
      (if i < ph.pFilesz then (image.fileByte (ph.pOffset + i)).toNat else 0)
  once : placed.map Prod.fst
    = (image.segments.flatMap Proghdr.pages).reverse
  distinct : (placed.map Prod.fst).Nodup ∧ (placed.map Prod.snd).Nodup
  fresh : ∀ e ∈ placed, e.2 ∈ s.free
  mapped : ∀ ph ∈ image.segments, ∀ la ∈ ph.pages, ∃ page flags,
    (la, page) ∈ placed ∧ lookup s' pgdir la = some (page, flags)
      ∧ Permits ph.pFlags flags

/-- `load_icode` returns 0, with the program in memory. -/
def Succeeds (K : Kmalloc M) (image : Image) (current : Current)
    (s : Machine M) : Prop :=
  ∃ res mm, loadIcode K image current s = .ok res ∧ res.ret = .ok
    ∧ res.current.mm = some mm
    ∧ InMemory image s res.machine mm.pgdir res.placed

/-- `load_icode` returns `-E_NO_MEM`, or the assertion that a page of the
stack was allocated fails. -/
def OutOfMemory (K : Kmalloc M) (image : Image) (current : Current)
    (s : Machine M) : Prop :=
  (∃ res, loadIcode K image current s = .ok res ∧ res.ret = .noMem)
    ∨ loadIcode K image current s = .error .stack

-- =================================================== the permissions

theorem permits_perm (pFlags : Nat) :
    Permits pFlags (pteV ||| (pteV ||| perm (vmFlags pFlags))) := by
  unfold Permits perm vmFlags
  by_cases hx : hasFlag pFlags elfPfX <;>
    by_cases hw : hasFlag pFlags elfPfW <;>
    by_cases hrd : hasFlag pFlags elfPfR <;>
    · simp only [hx, hw, hrd, if_true, if_false]
      decide

/-- The pages of the segments are all different. -/
theorem pages_nodup (hwf : image.WellFormed) :
    (image.segments.flatMap Proghdr.pages).Nodup := by
  rw [List.nodup_flatMap]
  refine ⟨fun ph _ => pagesFrom_nodup _ _, ?_⟩
  apply hwf.apart.imp_of_mem
  intro p q hp hq hapart la hlap hlaq
  obtain ⟨hp1, hp2⟩ := inRange_of_mem (hwf.loadable p hp) hlap
  obtain ⟨hq1, hq2⟩ := inRange_of_mem (hwf.loadable q hq) hlaq
  unfold Proghdr.Apart at hapart
  omega

/-- What a slot with a created entry is looked up as. -/
theorem lookup_created {la page perm : Nat} (h : RefInv roots lost noHold s)
    (hr : r ∈ roots) (hla : la < usertop) (hpage : Managed page)
    (hperm : perm < 2 ^ 10)
    (hpte : pteAt roots s (slotOf r la) = pteCreate page (pteV ||| perm)) :
    lookup s r la = some (page, pteV ||| (pteV ||| perm)) := by
  have hlow : pteV ||| perm < 2 ^ 10 := Nat.or_lt_two_pow (by decide) hperm
  rw [lookup_eq h hr (pdx1_user hla), leafAt, hpte,
    frameOf_pteCreate hpage.lt hlow, Option.map_some, pteCreate_mod hlow]

instance : Std.Symm Proghdr.Apart := ⟨fun _ _ h => h.symm⟩

/-- The segments stay in memory while the stack is mapped. -/
theorem Built.inMemory {s' : Machine M} (hwf : image.WellFormed)
    (hr : r ∈ roots) (h₀ : RefInv roots lost noHold s₀)
    (h : Built roots lost r image s₀ image.segments l)
    (hgrows : Grows roots lost (SlotAt r stackRange) l.machine s')
    (hfree : s₀.free ⊆ s.free) : InMemory image s s' r l.placed := by
  have hinv := h.grows.inv
  have huser : ∀ ph ∈ image.segments, ∀ va, InRange ph.first ph.pastLast va →
      va < usertop ∧ ¬ SlotAt r stackRange (slotOf r va) := by
    intro ph hph va hva
    exact ⟨Nat.lt_of_lt_of_le hva.2 (hwf.loadable ph hph).user.2.2,
      not_stack (Nat.lt_of_lt_of_le hva.2 (hwf.low ph hph))⟩
  have hmanaged : ∀ e ∈ l.placed, Managed e.2 := fun e he =>
    h₀.forest.freeManaged (h.placed e he).1
  have hsegment : ∀ e ∈ l.placed, ∃ ph ∈ image.segments, e.1 ∈ ph.pages
      ∧ InRange ph.first ph.pastLast e.1
      ∧ pteAt roots l.machine (slotOf r e.1)
        = pteCreate e.2 (pteV ||| perm (vmFlags ph.pFlags)) := by
    intro e he
    obtain ⟨-, ph, hph, hin, hpte⟩ := h.placed e he
    exact ⟨ph, hph, hin, inRange_of_mem (hwf.loadable ph hph) hin, hpte⟩
  have hleaf : ∀ e ∈ l.placed,
      leafAt roots l.machine (slotOf r e.1) = some e.2 := by
    intro e he
    obtain ⟨ph, -, -, -, hpte⟩ := hsegment e he
    rw [leafAt, hpte, frameOf_pteCreate (hmanaged e he).lt
      (Nat.or_lt_two_pow (by decide) (perm_lt _))]
  have hfst : (l.placed.map Prod.fst).Nodup := by
    rw [h.addrs, List.nodup_reverse]
    exact pages_nodup hwf
  refine ⟨?_, h.addrs, ⟨hfst, ?_⟩, fun e he => hfree (h.placed e he).1, ?_⟩
  · intro ph hph i hi
    have hva : InRange ph.first ph.pastLast (ph.pVa + i) :=
      inRange_pages (hwf.loadable ph hph) (Nat.le_add_right _ _) (by omega)
    obtain ⟨htop, hout⟩ := huser ph hph _ hva
    obtain ⟨page, hpage, hbyte⟩ :=
      h.bytes ph hph (ph.pVa + i) (Nat.le_add_right _ _) (by omega)
    have hmem := (hgrows.user page
      (hinv.mapped (slotOf_mem hr (pdx1_user htop)) hpage)).2
    have hcontent : (image.content ph (ph.pVa + i)).toNat
        = if i < ph.pFilesz then (image.fileByte (ph.pOffset + i)).toNat
          else 0 := by
      unfold Image.content
      by_cases hlt : i < ph.pFilesz
      · rw [if_pos hlt, if_pos (by omega), Nat.add_sub_cancel_left,
          Image.byteAt, Image.fileByte]
        congr 2
        omega
      · rw [if_neg hlt, if_neg (by omega)]
        rfl
    rw [userByte, lookup_eq hgrows.inv hr (pdx1_user htop),
      hgrows.leaf hout, hpage, Option.map_some, Option.map_some, hmem, hbyte,
      hcontent]
  · -- a page that is mapped at two addresses is mapped at one
    apply List.Nodup.map_on _ hfst.of_map
    intro e he e' he' heq
    obtain ⟨ph, hph, hin, hrange, -⟩ := hsegment e he
    obtain ⟨ph', hph', hin', hrange', -⟩ := hsegment e' he'
    obtain ⟨htop, -⟩ := huser ph hph _ hrange
    obtain ⟨htop', -⟩ := huser ph' hph' _ hrange'
    have hslot := h.alone _ _ e.2 (slotOf_mem hr (pdx1_user htop))
      (slotOf_mem hr (pdx1_user htop')) rfl (hleaf e he)
      (by rw [heq]; exact hleaf e' he')
    have hmod := ((mem_pagesFrom (rounddown_mod _)
      (roundup_user (hwf.loadable ph hph).fits).2.2).mp hin).2.2
    have hmod' := ((mem_pagesFrom (rounddown_mod _)
      (roundup_user (hwf.loadable ph' hph').fits).2.2).mp hin').2.2
    have hpage : e.1 / pgsize = e'.1 / pgsize := by
      by_contra hne
      exact slotOf_ne htop htop' hne hslot.symm
    apply Prod.ext _ heq
    unfold pgsize at *
    omega
  · intro ph hph la hla
    have hin : la ∈ l.placed.map Prod.fst := by
      rw [h.addrs, List.mem_reverse]
      exact List.mem_flatMap_of_mem hph hla
    obtain ⟨e, he, rfl⟩ := List.mem_map.mp hin
    obtain ⟨p, hp, hpin, hrange, hpte⟩ := hsegment e he
    obtain ⟨htop, hout⟩ := huser p hp _ hrange
    -- the page lies in one segment
    have hsame : p = ph := by
      by_contra hne
      have hapart := hwf.apart.forall hp hph hne
      have hrange' := inRange_of_mem (hwf.loadable ph hph) hla
      unfold Proghdr.Apart at hapart
      unfold InRange at hrange hrange'
      omega
    subst hsame
    refine ⟨e.2, _, he, lookup_created hgrows.inv hr htop (hmanaged e he)
      (perm_lt _) ?_, permits_perm p.pFlags⟩
    rw [hgrows.pte _ hout, hpte]

-- ========================================================== the call

/-- The stack's range is vacant above the segments. -/
theorem Built.stack_vacant (hwf : image.WellFormed)
    (h : Built roots lost r image s₀ image.segments l) :
    Vacant l.mm (requested (ustacktop - ustacksize) ustacksize
      (vmRead ||| vmWrite ||| vmStack)) := by
  refine ⟨by decide, ?_⟩
  intro v hv
  obtain ⟨p, hp, rfl⟩ := List.mem_map.mp (h.list.mem_iff.mp hv)
  rw [area_eq (hwf.loadable p hp)]
  exact Or.inl (hwf.low p hp)

/-- No area has an address of the stack. -/
theorem Built.below_stack (hwf : image.WellFormed)
    (h : Built roots lost r image s₀ image.segments l) {la : Nat}
    (hla : stackRange la) :
    ¬ SlotAt r (InVmas l.mm.mmapList) (slotOf r la) := by
  intro hx
  obtain ⟨b, ⟨v, hv, -, hb⟩, heq⟩ := hx
  obtain ⟨p, hp, rfl⟩ := List.mem_map.mp (h.list.mem_iff.mp hv)
  rw [area_eq (hwf.loadable p hp)] at hb
  apply not_stack (Nat.lt_of_lt_of_le hb (hwf.low p hp))
  exact ⟨la, hla, heq.symm⟩

/-- From `(4)` on: the program is in memory, unless there is no page for the
stack. -/
theorem startProgram_spec (hwf : image.WellFormed) (hr : r ∈ roots)
    (h₀ : RefInv roots lost noHold s₀)
    (hzero : ∀ x : Slot, x.1 = r → pteAt roots s₀ x = 0)
    (h : Built roots lost r image s₀ image.segments l) (current : Current)
    (hfree : s₀.free ⊆ s.free) :
    (∃ res mm, startProgram K image current l = .ok res ∧ res.ret = .ok
        ∧ res.current.mm = some mm
        ∧ InMemory image s res.machine mm.pgdir res.placed)
      ∨ ((∃ res, startProgram K image current l = .ok res ∧ res.ret = .noMem)
          ∨ startProgram K image current l = .error .stack)
        ∧ s₀.free.card < 13 + need image.segments := by
  have hcost := h.cost
  unfold startProgram
  obtain ⟨ret, l₁, hmap, hmachine, hplaced, hret⟩ :=
    mapArea_spec (K := K) h.areas (h.stack_vacant hwf)
  have hgrows₁ : Grows roots lost (fun _ => False) l.machine l₁.machine := by
    rw [hmachine]
    exact grows_kmalloc K h.grows.inv
  have hcard₁ : l.machine.free.card ≤ l₁.machine.free.card + 1 := by
    rw [hmachine]
    exact (K.kmalloc_spec l.machine.pmm).2
  rw [hmap]
  rcases hret with ⟨rfl, -, -, hroot, -⟩ | ⟨rfl, hmm, hempty⟩
  · dsimp only
    have hroot' : l₁.mm.pgdir = r := hroot.trans h.root
    rw [hroot']
    have hks : ∀ k ∈ [1, 2, 3, 4], 0 < k ∧ k ≤ 256
        ∧ leafAt roots l₁.machine (slotOf r (ustacktop - k * pgsize))
          = none := by
      intro k hk
      have hin : stackRange (ustacktop - k * pgsize) ∧ 0 < k ∧ k ≤ 256 := by
        revert k
        unfold stackRange InRange
        decide
      refine ⟨hin.2.1, hin.2.2, ?_⟩
      rw [hgrows₁.leaf (fun hx => hx), h.grows.leaf (h.below_stack hwf hin.1),
        leafAt, hzero _ rfl, frameOf_zero]
    rcases stackPages_spec hr hgrows₁.inv (by decide) hks with
      ⟨s', hrun, hgrows⟩ | ⟨hrun, hcard⟩
    · have hrun' : stackPages r l₁.machine = .ok s' := hrun
      rw [hrun', eEntry_eq hwf]
      refine Or.inl ⟨_, _, rfl, rfl, rfl, ?_⟩
      dsimp only
      rw [hplaced]
      exact h.inMemory hwf hr h₀
        ((hgrows₁.weaken fun _ hx => hx.elim).trans hgrows) hfree
    · have hrun' : stackPages r l₁.machine = .error .stack := hrun
      rw [hrun']
      refine Or.inr ⟨Or.inr rfl, ?_⟩
      have hlen : [1, 2, 3, 4].length = 4 := rfl
      rw [hlen] at hcard
      unfold need
      omega
  · -- no page for the area of the stack
    have hremove : Removable roots lost r l₁ := by
      apply Removable.of_grows _ _ _ hzero
      · rw [hmm]
        exact h.grows.trans (hgrows₁.weaken fun _ hx => hx.elim)
      · rw [hmm, h.root]
      · rw [hmm, h.count]
      · rw [hmm]
        exact h.vmaOk hwf.loadable
    obtain ⟨res, -, hrun, hres, -⟩ :=
      cleanup_spec current (.ofRet .noMem) hr hremove
    refine Or.inr ⟨Or.inl ⟨res, hrun, hres⟩, ?_⟩
    rw [hempty, Finset.card_empty] at hcost
    unfold need
    omega

/-- Before the first header nothing is loaded. -/
theorem Built.nil (h : RefInv roots lost noHold s₀)
    (hzero : ∀ x : Slot, x.1 = r → pteAt roots s₀ x = 0) :
    Built roots lost r image s₀ []
      { mm := mmCreate r, machine := s₀, placed := [] } where
  root := rfl
  count := rfl
  areas := ⟨List.Pairwise.nil, (fun _ h => by cases h), fun _ h => by cases h⟩
  list := List.Perm.refl _
  grows := Grows.refl h
  addrs := rfl
  placed := fun _ h => by cases h
  bytes := fun _ h => by cases h
  alone x y page _ _ hxr hpx _ := by
    rw [leafAt, hzero x hxr, frameOf_zero] at hpx
    cases hpx
  cost := Nat.le_refl _

/-- The call, and how many pages it may take. -/
theorem loadIcode_spec (hwf : image.WellFormed)
    (h : RefInv roots lost noHold s) {current : Current}
    (hcurrent : current.mm = none) :
    Succeeds K image current s
      ∨ OutOfMemory K image current s
        ∧ s.free.card < 15 + need image.segments := by
  unfold Succeeds OutOfMemory loadIcode
  have hmm : ¬ current.mm.isSome = true := by
    rw [hcurrent]
    exact fun h => by cases h
  rw [if_neg hmm]
  have hspec := K.kmalloc_spec s.pmm
  have hsome := K.kmalloc_some s.pmm
  have hinv₁ := (grows_kmalloc (X := fun _ => False) K h).inv
  cases hk : K.kmalloc s.pmm with
  | mk room pmm =>
  rw [hk] at hspec hsome hinv₁
  dsimp only at hspec hsome hinv₁ ⊢
  obtain ⟨hsub, hcard⟩ := hspec
  cases room with
  | false =>
      have hempty : s.free = ∅ := by
        by_contra hne
        exact absurd (hsome (Finset.nonempty_iff_ne_empty.mpr hne))
          (fun h => by cases h)
      refine Or.inr ⟨Or.inl ⟨_, rfl, rfl⟩, ?_⟩
      rw [hempty, Finset.card_empty]
      omega
  | true =>
      let s₁ : Machine M := { s with pmm := pmm }
      have hcard₁ : s.free.card ≤ s₁.free.card + 1 := hcard
      have hsub₁ : s₁.free ⊆ s.free := hsub
      rcases setupPgdir_spec hinv₁ with
        ⟨r, s₀, hsetup, h₀, hin, -, hfree, -, hzero⟩ | ⟨hsetup, hempty⟩
      · have hcard₀ : s₀.free.card + 1 = s₁.free.card := by
          rw [hfree]
          exact Finset.card_erase_add_one hin
        have hsub₀ : s₀.free ⊆ s.free := by
          rw [hfree]
          exact (Finset.erase_subset _ _).trans hsub₁
        obtain ⟨hph, hend⟩ := phEnd_eq hwf
        have hr : r ∈ insert r roots := Finset.mem_insert_self _ _
        have hnil : Built (insert r roots) lost r image s₀
            (image.segmentsUpTo 0)
            { mm := mmCreate r, machine := s₀, placed := [] } :=
          Built.nil h₀ hzero
        obtain ⟨ret, l, hrun, hok, hfail⟩ :=
          loadPhs_spec (K := K) hwf hr hzero (Nat.zero_le _)
            (Nat.lt_succ_self _) hnil
        rw [hsetup, ePhoff_eq hwf, eMagic_eq hwf]
        dsimp only
        rw [if_neg (not_not.mpr rfl), ePhnum_eq hwf]
        dsimp only
        have hrun' : loadPhs K image
            (add64 (add64 image.binary image.phoff)
              (image.phnum * proghdrSize)) (image.phnum + 1)
            (add64 image.binary image.phoff)
            { mm := mmCreate r, machine := s₀, placed := [] }
            = .ok (ret, l) := by
          rw [hend, hph]
          exact hrun
        rw [hrun']
        simp only [Bool.not_true, Bool.false_eq_true, if_false]
        cases ret with
        | ok =>
            rcases startProgram_spec hwf hr h₀ hzero (hok rfl) current hsub₀
              with hdone | ⟨hout, hfew⟩
            · exact Or.inl hdone
            · exact Or.inr ⟨hout, by omega⟩
        | noMem =>
            obtain ⟨-, hremove, hfew⟩ := hfail (fun h => by cases h)
            obtain ⟨res, -, hclean, hres, -⟩ :=
              cleanup_spec current .noMem hr hremove
            exact Or.inr ⟨Or.inl ⟨res, hclean, hres⟩, by omega⟩
        | inval =>
            exact absurd (hfail (fun h => by cases h)).1 (fun h => by cases h)
        | invalElf =>
            exact absurd (hfail (fun h => by cases h)).1 (fun h => by cases h)
      · rw [hsetup]
        refine Or.inr ⟨Or.inl ⟨_, rfl, rfl⟩, ?_⟩
        have hzero : s₁.free.card = 0 := by
          rw [Finset.card_eq_zero]
          exact hempty
        omega

/-- `load_icode` of a well-formed image loads the program, if there are
enough free pages. Where it does not, it ran out of pages: the assertion
about `start`, `end` and `la` holds on every path. -/
theorem load_icode_loads (hwf : image.WellFormed)
    (h : RefInv roots lost noHold s) {current : Current}
    (hcurrent : current.mm = none) :
    (Succeeds K image current s ∨ OutOfMemory K image current s)
      ∧ loadIcode K image current s ≠ .error .cursor
      ∧ (15 + need image.segments ≤ s.free.card →
        Succeeds K image current s) := by
  have hcases := loadIcode_spec (K := K) hwf h hcurrent
  refine ⟨hcases.imp_right And.left, ?_, ?_⟩
  · intro hcursor
    rcases hcases with ⟨res, mm, hrun, -⟩ | ⟨⟨res, hrun, -⟩ | hrun, -⟩
    · rw [hrun] at hcursor
      cases hcursor
    · rw [hrun] at hcursor
      cases hcursor
    · rw [hrun] at hcursor
      cases hcursor
  · intro henough
    rcases hcases with hsucceeds | ⟨-, hfew⟩
    · exact hsucceeds
    · omega

-- ======================================================== an example

/-- The bytes of a word of `n` bytes. -/
def leBytes (n w : Nat) : List UInt8 := (List.range n).map (wordByte w)

/-- The bytes of a program header of type `PT_LOAD`. -/
def Proghdr.toBytes (ph : Proghdr) : List UInt8 :=
  leBytes 4 elfPtLoad ++ leBytes 4 ph.pFlags ++ leBytes 8 ph.pOffset
    ++ leBytes 8 ph.pVa ++ leBytes 8 ph.pVa ++ leBytes 8 ph.pFilesz
    ++ leBytes 8 ph.pMemsz ++ leBytes 8 pgsize

/-- An image of some segments, with their bytes after the headers. -/
def imageOf (segments : List Proghdr) (content : List UInt8) : Image where
  binary := 0xFFFFFFFFC0300000
  bytes := leBytes 4 elfMagic ++ List.replicate 20 0 ++ leBytes 8 0x800020
    ++ leBytes 8 elfhdrSize ++ List.replicate 16 0
    ++ leBytes 2 segments.length ++ List.replicate 6 0
    ++ segments.flatMap Proghdr.toBytes ++ content

/-- Text that runs from one page into the next, and cleared memory. -/
def twoSegments : List Proghdr :=
  [{ pFlags := 5, pOffset := 176, pVa := 0x800FFE, pFilesz := 4, pMemsz := 9 },
    { pFlags := 6, pOffset := 180, pVa := 0x803010, pFilesz := 0
      pMemsz := 0x1000 }]

/-- `kmalloc` with room in its own pages. -/
def roomy : Kmalloc lowestFirst where
  kmalloc σ := (true, σ)
  kmalloc_spec _ := ⟨Finset.Subset.refl _, Nat.le_succ _⟩
  kmalloc_some _ _ := rfl

/-- A machine without address spaces and with 64 free pages. -/
def idle : Machine lowestFirst :=
  { cleared with pmm := (List.range 64).map (0x80301 + ·) }

theorem idle_refInv : RefInv ∅ ∅ noHold idle := by
  have hnone : ∀ r path, tableAt ∅ idle r path = none := by
    intro r path
    induction path with
    | nil => rfl
    | cons i path ih => exact tableAt_cons_none ih
  have hleaf : ∀ x, leafAt ∅ idle x = none := by
    intro x
    unfold leafAt pteAt
    rw [hnone, frameOf_zero]
  refine ⟨⟨?_, ?_, ?_, ?_, (fun h => by cases h), fun h => by cases h⟩, ?_, ?_,
    fun h => by cases h⟩
  · intro r path r' path' f hf
    rw [hnone] at hf
    cases hf
  · intro r path f hf
    rw [hnone] at hf
    cases hf
  · intro r path f hf
    rw [hnone] at hf
    cases hf
  · intro f hf
    have hmem : f ∈ (List.range 64).map (0x80301 + ·) :=
      List.mem_toFinset.mp hf
    obtain ⟨k, hk, rfl⟩ := List.mem_map.mp hmem
    rw [List.mem_range] at hk
    unfold Managed nbase npage
    omega
  · intro p _
    have hzero : mapCount ∅ idle p = 0 := by
      by_contra hne
      obtain ⟨x, -, hx⟩ := mapCount_pos.mp (Nat.pos_of_ne_zero hne)
      rw [hleaf] at hx
      cases hx
    rw [hzero]
    rfl
  · intro x p _ hp
    rw [hleaf] at hp
    cases hp

theorem imageOf_twoSegments :
    (imageOf twoSegments [1, 2, 3, 4]).segments = twoSegments := by
  decide +kernel

theorem twoSegments_wellFormed :
    (imageOf twoSegments [1, 2, 3, 4]).WellFormed := by
  have hsegments := imageOf_twoSegments
  have hload : ∀ ph ∈ twoSegments,
      (imageOf twoSegments [1, 2, 3, 4]).Loadable ph := by
    intro ph hph
    have hall : ∀ ph ∈ twoSegments, ph.pFilesz ≤ ph.pMemsz ∧ 0 < ph.pMemsz
        ∧ ph.pOffset + ph.pFilesz ≤ (imageOf twoSegments [1, 2, 3, 4]).size
        ∧ userAccess ph.first ph.pastLast ∧ ph.pVa + ph.pMemsz ≤ usertop := by
      decide +kernel
    obtain ⟨h1, h2, h3, h4, h5⟩ := hall ph hph
    exact ⟨h1, h2, h3, h4, h5⟩
  refine ⟨by decide +kernel, by decide +kernel, by decide +kernel,
    by decide +kernel, ?_, ?_, ?_⟩
  · rw [hsegments]
    exact hload
  · rw [hsegments]
    decide +kernel
  · rw [hsegments]
    unfold Proghdr.Apart twoSegments
    simp only [List.pairwise_cons, List.Pairwise.nil]
    decide +kernel

/-- A process without an address space. -/
def blank : Current where
  mm := none
  cr3 := 0
  tf := { gpr := fun _ => 0, status := 0, epc := 0, tval := 0, cause := 0 }

/-- The two segments are loaded. -/
theorem load_icode_loads_two :
    Succeeds roomy (imageOf twoSegments [1, 2, 3, 4]) blank idle := by
  apply (load_icode_loads twoSegments_wellFormed idle_refInv rfl).2.2
  rw [imageOf_twoSegments]
  decide +kernel

end Ucore.Exec
