/-
The copy-on-write system behaves as one that copies all pages at fork.

The invariant (`Inv`) is that of the page tables, together with: where an
entry has `PTE_W`, no other entry maps the page. Fork takes `PTE_W` away
from both entries of the pages it shares, and a store gets it only for a
page of its own.
-/
import Ucore.Cow.Proofs.Fault
import Ucore.Cow.Proofs.Fork
import Ucore.Cow.System
import Ucore.Lib.Run
import Ucore.Mm.Proofs.PageRefRun

namespace Ucore.Cow

open Mm

variable {M : PmmManager} {roots roots' : Finset Nat} {lost : Set Nat}
  {s s' : Machine M} {mm mm' child : MmStruct} {c c' : State M}

/-- The invariant of the copy-on-write system. -/
structure Inv (roots : Finset Nat) (lost : Set Nat) (c : State M) : Prop
    extends Spaces roots lost c where
  alone : ∀ {x y f}, x ∈ slots roots → y ∈ slots roots →
    leafAt roots c.machine x = some f → leafAt roots c.machine y = some f →
    hasFlag (pteAt roots c.machine x) pteW → y = x

-- ================================================= spaces and images

/-- A slot belongs to an area exactly if the address does. -/
theorem slotAt_iff {r va : Nat} {vmas : List Vma}
    (hok : ∀ vma ∈ vmas, VmaOk vma) (hva : va < usertop) :
    SlotAt r (InVmas vmas) (slotOf r va) ↔ InVmas vmas va := by
  constructor
  · rintro ⟨vb, ⟨vma, hin, hb⟩, hslot⟩
    have hvb : vb < usertop := inVmas_lt hok ⟨vma, hin, hb⟩
    have hpage : va / pgsize = vb / pgsize := by
      by_contra hne
      exact slotOf_ne hva hvb hne hslot
    obtain ⟨hstart, hend, -⟩ := hok vma hin
    obtain ⟨h1, h2⟩ := hb
    refine ⟨vma, hin, ?_, ?_⟩
    · unfold pgsize at *
      omega
    · unfold pgsize at *
      omega
  · exact fun h => ⟨va, h, rfl⟩

theorem Writable.inVmas {va : Nat} (h : Writable mm va) :
    InVmas mm.mmapList va := by
  obtain ⟨vma, hin, hva, -⟩ := h
  exact ⟨vma, hin, hva⟩

/-- The bytes of a process in terms of its slots. -/
theorem image_byte (hr : mm.pgdir ∈ roots) (va : Nat) :
    (image s mm).byte va = if va < usertop then
      loadAt roots s (slotOf mm.pgdir va) (pgoff va) else none := by
  show (if va < usertop then userLoad s mm.pgdir va else none) = _
  by_cases hva : va < usertop
  · rw [if_pos hva, if_pos hva, userLoad_eq hr hva]
  · rw [if_neg hva, if_neg hva]

/-- Two processes with the same areas that load the same see the same. -/
theorem image_eq (hr : mm.pgdir ∈ roots) (hr' : mm'.pgdir ∈ roots')
    (hlist : mm'.mmapList = mm.mmapList)
    (hload : ∀ va, va < usertop →
      loadAt roots' s' (slotOf mm'.pgdir va) (pgoff va)
        = loadAt roots s (slotOf mm.pgdir va) (pgoff va)) :
    image s' mm' = image s mm := by
  have hbyte : (image s' mm').byte = (image s mm).byte := by
    funext va
    rw [image_byte hr, image_byte hr']
    by_cases hva : va < usertop
    · rw [if_pos hva, if_pos hva, hload va hva]
    · rw [if_neg hva, if_neg hva]
  have hwritable : (image s' mm').writable = (image s mm).writable := by
    funext va
    show Writable mm' va = Writable mm va
    rw [Writable, Writable, hlist]
  unfold image at *
  rw [Image.mk.injEq]
  exact ⟨hbyte, hwritable⟩

/-- The page an address of an area is mapped to. -/
theorem Space.page (h : Space roots s mm) (hinv : RefInv roots lost noHold s)
    (hr : mm.pgdir ∈ roots) {va : Nat} (hva : InVmas mm.mmapList va) :
    ∃ f, leafAt roots s (slotOf mm.pgdir va) = some f ∧ Managed f := by
  obtain ⟨f, hf⟩ := Option.ne_none_iff_exists'.mp (h.full va hva)
  have hslot : slotOf mm.pgdir va ∈ slots roots :=
    slotOf_mem hr (pdx1_user (inVmas_lt h.ok hva))
  exact ⟨f, hf, (hinv.mapped hslot hf).1⟩

/-- A process whose slots show the same is as it was. -/
theorem Space.same (h : Space roots s mm) (hr : mm.pgdir ∈ roots)
    (hr' : mm.pgdir ∈ roots')
    (hview : ∀ x ∈ slots roots', x.1 = mm.pgdir →
      SameView roots s roots' s' x) :
    Space roots' s' mm ∧ image s' mm = image s mm := by
  have hin : ∀ {va}, va < usertop →
      SameView roots s roots' s' (slotOf mm.pgdir va) := fun hva =>
    hview _ (slotOf_mem hr' (pdx1_user hva)) rfl
  refine ⟨⟨h.count, h.sorted, h.ok, h.cache, ?_, ?_, ?_, ?_⟩, ?_⟩
  · intro va hva
    rw [leafAt, (hin (inVmas_lt h.ok hva)).1]
    exact h.full va hva
  · rintro ⟨r, d1, d0, t⟩ hx hxr hleaf
    have hsame := hview _ hx hxr
    rw [leafAt, hsame.1] at hleaf
    rw [mem_slots] at hx
    refine h.inside _ (mem_slots.mpr ⟨?_, hx.2⟩) hxr hleaf
    exact (show r = mm.pgdir from hxr) ▸ hr
  · intro va hva
    rw [(hin (inVmas_lt h.ok hva)).1]
    exact h.user va hva
  · intro va hva
    rw [(hin (inVmas_lt h.ok hva.inVmas)).1]
    exact h.read va hva
  · exact image_eq hr hr' rfl fun va hva => loadAt_congr (hin hva)

-- =============================================== one process changes

section Update

variable {q : Nat} {o : Option MmStruct}

/-- What is seen when one process changes and the others see the same. -/
theorem view_update (hothers : ∀ {p mm}, p ≠ q → c.procs p = some mm →
    image s' mm = image c.machine mm) :
    view ⟨s', Function.update c.procs q o⟩
      = Function.update (view c) q (o.map (image s')) := by
  funext p
  show (Function.update c.procs q o p).map (image s') = _
  by_cases hpq : p = q
  · rw [hpq, Function.update_self, Function.update_self]
  · rw [Function.update_of_ne hpq, Function.update_of_ne hpq, view]
    cases hp : c.procs p with
    | none => rfl
    | some mm => rw [Option.map_some, Option.map_some, hothers hpq hp]

/-- The spaces when one process changes and the others keep theirs. -/
theorem Spaces.update (h : Spaces roots lost c) {lost' : Set Nat}
    (hinv : RefInv roots' lost' noHold s')
    (hnew : ∀ {mm}, o = some mm → mm.pgdir ∈ roots' ∧ Space roots' s' mm
      ∧ ∀ {p mm'}, p ≠ q → c.procs p = some mm' → mm'.pgdir ≠ mm.pgdir)
    (hothers : ∀ {p mm}, p ≠ q → c.procs p = some mm →
      mm.pgdir ∈ roots' ∧ Space roots' s' mm) :
    Spaces roots' lost' ⟨s', Function.update c.procs q o⟩ := by
  have hcases : ∀ {p mm}, Function.update c.procs q o p = some mm →
      p = q ∧ o = some mm ∨ p ≠ q ∧ c.procs p = some mm := by
    intro p mm hp
    by_cases hpq : p = q
    · rw [hpq, Function.update_self] at hp
      exact Or.inl ⟨hpq, hp⟩
    · rw [Function.update_of_ne hpq] at hp
      exact Or.inr ⟨hpq, hp⟩
  refine ⟨hinv, ?_, ?_, ?_⟩
  · intro p mm hp
    rcases hcases hp with ⟨-, ho⟩ | ⟨hpq, hp'⟩
    · exact (hnew ho).1
    · exact (hothers hpq hp').1
  · intro p₁ p₂ mm₁ mm₂ hp₁ hp₂ heq
    rcases hcases hp₁ with ⟨rfl, ho₁⟩ | ⟨hpq₁, hp₁'⟩
    · rcases hcases hp₂ with ⟨rfl, -⟩ | ⟨hpq₂, hp₂'⟩
      · rfl
      · exact absurd heq.symm ((hnew ho₁).2.2 hpq₂ hp₂')
    · rcases hcases hp₂ with ⟨rfl, ho₂⟩ | ⟨-, hp₂'⟩
      · exact absurd heq ((hnew ho₂).2.2 hpq₁ hp₁')
      · exact h.root_inj hp₁' hp₂' heq
  · intro p mm hp
    rcases hcases hp with ⟨-, ho⟩ | ⟨hpq, hp'⟩
    · exact (hnew ho).2.1
    · exact (hothers hpq hp').2

end Update

-- ============================================================== fork

/-- Root `r` shows the pages of `mm` under shared entries, and no more. -/
structure SharedTo (roots : Finset Nat) (s : Machine M) (mm : MmStruct)
    (roots' : Finset Nat) (s' : Machine M) (r : Nat) : Prop where
  entry : ∀ {va f}, InVmas mm.mmapList va →
    leafAt roots s (slotOf mm.pgdir va) = some f →
    pteAt roots' s' (slotOf r va)
        = sharedPte f (pteAt roots s (slotOf mm.pgdir va))
      ∧ s'.mem f = s.mem f
  outside : ∀ {x}, x ∈ slots roots' → x.1 = r →
    ¬ SlotAt r (InVmas mm.mmapList) x → leafAt roots' s' x = none

/-- A process below such a root sees what the one it was forked from saw. -/
theorem Space.share (h : Space roots s mm) (hinv : RefInv roots lost noHold s)
    (hr : mm.pgdir ∈ roots) (hr' : mm'.pgdir ∈ roots')
    (hshared : SharedTo roots s mm roots' s' mm'.pgdir)
    (hlist : mm'.mmapList = mm.mmapList) (hcount : mm'.mmCount = 1)
    (hcache : ∀ vma ∈ mm'.mmapCache, vma ∈ mm'.mmapList) :
    Space roots' s' mm' ∧ image s' mm' = image s mm := by
  refine ⟨⟨hcount, hlist ▸ h.sorted, hlist ▸ h.ok, hcache, ?_, ?_, ?_, ?_⟩,
    image_eq hr hr' hlist ?_⟩
  · intro va hva
    rw [hlist] at hva
    obtain ⟨f, hf, hm⟩ := h.page hinv hr hva
    rw [leafAt, (hshared.entry hva hf).1, frameOf_sharedPte hm]
    exact fun h => by cases h
  · intro x hx hxr hleaf
    rw [hlist]
    by_contra hno
    exact hleaf (hshared.outside hx hxr hno)
  · intro va hva
    rw [hlist] at hva
    obtain ⟨f, hf, -⟩ := h.page hinv hr hva
    rw [(hshared.entry hva hf).1, hasFlag_sharedPte_pteU]
    exact h.user va hva
  · intro va hva
    have hva' : Writable mm va := by
      rw [Writable, hlist] at hva
      exact hva
    obtain ⟨f, hf, -⟩ := h.page hinv hr hva'.inVmas
    rw [(hshared.entry hva'.inVmas hf).1, hasFlag_sharedPte_pteR]
    exact h.read va hva'
  · intro va hva
    by_cases hin : InVmas mm.mmapList va
    · obtain ⟨f, hf, hm⟩ := h.page hinv hr hin
      obtain ⟨hpte, hmem⟩ := hshared.entry hin hf
      unfold loadAt
      rw [leafAt, hpte, frameOf_sharedPte hm, hf]
      simp only [hasFlag_sharedPte_pteU, hasFlag_sharedPte_pteR,
        Option.map_some, frameByte, hmem]
    · -- neither maps anything outside the areas
      have hnone' : leafAt roots' s' (slotOf mm'.pgdir va) = none := by
        refine hshared.outside (slotOf_mem hr' (pdx1_user hva)) rfl ?_
        rw [slotAt_iff h.ok hva]
        exact hin
      have hnone : leafAt roots s (slotOf mm.pgdir va) = none := by
        by_contra hne
        exact hin ((slotAt_iff h.ok hva).mp
          (h.inside _ (slotOf_mem hr (pdx1_user hva)) rfl hne))
      rw [loadAt_none hnone', loadAt_none hnone]

theorem Forked.toChild (h : Forked roots lost mm child s s') :
    SharedTo roots s mm (insert child.pgdir roots) s' child.pgdir where
  entry hva hf := (h.shared hva hf).2
  outside _ hxr hX := by rw [leafAt, h.outside hxr hX, frameOf_zero]

theorem Forked.toParent (h : Forked roots lost mm child s s')
    (hspace : Space roots s mm) (hr : mm.pgdir ∈ roots) :
    SharedTo roots s mm (insert child.pgdir roots) s' mm.pgdir where
  entry hva hf := ⟨(h.shared hva hf).1, (h.shared hva hf).2.2⟩
  outside := by
    rintro ⟨r, d1, d0, t⟩ hx rfl hX
    rw [mem_slots] at hx
    have hx' : (mm.pgdir, d1, d0, t) ∈ slots roots :=
      mem_slots.mpr ⟨hr, hx.2⟩
    rw [leafAt, (h.others hx' hX).1]
    by_contra hne
    exact hX (hspace.inside _ hx' rfl hne)

/-- A mapped slot after a fork is one that was not touched, or one of the
two under which a page is shared. -/
theorem Forked.cases (h : Forked roots lost mm child s s')
    (hspace : Space roots s mm) (hinv : RefInv roots lost noHold s)
    (hr : mm.pgdir ∈ roots) {x : Slot} {f : Nat}
    (hx : x ∈ slots (insert child.pgdir roots))
    (hleaf : leafAt (insert child.pgdir roots) s' x = some f) :
    (x ∈ slots roots ∧ leafAt roots s x = some f
        ∧ pteAt (insert child.pgdir roots) s' x = pteAt roots s x
        ∧ ¬ SlotAt mm.pgdir (InVmas mm.mmapList) x)
      ∨ ∃ va, InVmas mm.mmapList va
        ∧ leafAt roots s (slotOf mm.pgdir va) = some f
        ∧ ¬ hasFlag (pteAt (insert child.pgdir roots) s' x) pteW := by
  by_cases hP : SlotAt mm.pgdir (InVmas mm.mmapList) x
  · obtain ⟨va, hva, rfl⟩ := hP
    obtain ⟨g, hg, hm⟩ := hspace.page hinv hr hva
    have hpte := (h.shared hva hg).1
    rw [leafAt, hpte, frameOf_sharedPte hm] at hleaf
    cases hleaf
    refine Or.inr ⟨va, hva, hg, ?_⟩
    rw [hpte]
    exact not_hasFlag_sharedPte_pteW
  · by_cases hC : SlotAt child.pgdir (InVmas mm.mmapList) x
    · obtain ⟨va, hva, rfl⟩ := hC
      obtain ⟨g, hg, hm⟩ := hspace.page hinv hr hva
      have hpte := (h.shared hva hg).2.1
      rw [leafAt, hpte, frameOf_sharedPte hm] at hleaf
      cases hleaf
      refine Or.inr ⟨va, hva, hg, ?_⟩
      rw [hpte]
      exact not_hasFlag_sharedPte_pteW
    · by_cases hxr : x.1 = child.pgdir
      · rw [leafAt, h.outside hxr hC, frameOf_zero] at hleaf
        cases hleaf
      · have hx' : x ∈ slots roots := by
          obtain ⟨r, d1, d0, t⟩ := x
          rw [mem_slots, Finset.mem_insert] at hx
          exact mem_slots.mpr ⟨hx.1.resolve_left hxr, hx.2⟩
        have hsame := (h.others hx' hP).1
        refine Or.inl ⟨hx', ?_, hsame, hP⟩
        rw [leafAt, ← hsame]
        exact hleaf

/-- A fork keeps the invariant; the child sees what the parent sees. -/
theorem Inv.fork (h : Inv roots lost c) {p q : Nat}
    (hp : c.procs p = some mm) (hq : c.procs q = none)
    (hf : Forked roots lost mm child c.machine s') :
    Inv (insert child.pgdir roots) lost
        ⟨s', Function.update c.procs q (some child)⟩
      ∧ Eager.Step (view c) (.fork p q)
        (view ⟨s', Function.update c.procs q (some child)⟩) := by
  have hr := h.root hp
  have hspace := h.space hp
  have hinsert := Finset.mem_insert_self child.pgdir roots
  obtain ⟨hchild, hchildIm⟩ := hspace.share h.refs hr hinsert hf.toChild
    hf.list_eq hf.count_eq (by rw [hf.cache_eq]; exact (fun _ h => by cases h))
  obtain ⟨hparent, hparentIm⟩ := hspace.share h.refs hr
    (Finset.mem_insert_of_mem hr) (hf.toParent hspace hr) rfl hspace.count
    hspace.cache
  -- every process that was there keeps its space and what it sees
  have hothers : ∀ {p' mm'}, c.procs p' = some mm' →
      Space (insert child.pgdir roots) s' mm'
        ∧ image s' mm' = image c.machine mm' := by
    intro p' mm' hp'
    have hr' := h.root hp'
    by_cases heq : mm'.pgdir = mm.pgdir
    · obtain rfl := h.root_inj hp' hp heq
      rw [hp] at hp'
      cases hp'
      exact ⟨hparent, hparentIm⟩
    · refine (h.space hp').same hr' (Finset.mem_insert_of_mem hr') ?_
      rintro ⟨r, d1, d0, t⟩ hx rfl
      refine hf.others (mem_slots.mpr ⟨hr', (mem_slots.mp hx).2⟩) ?_
      rintro ⟨va, -, hslot⟩
      exact heq (congrArg Prod.fst hslot)
  refine ⟨⟨h.toSpaces.update hf.inv ?_ ?_, ?_⟩, ?_⟩
  · intro mm' ho
    cases ho
    refine ⟨hinsert, hchild, fun _ hp' heq => ?_⟩
    exact hf.fresh (heq ▸ h.root hp')
  · intro p' mm' _ hp'
    exact ⟨Finset.mem_insert_of_mem (h.root hp'), (hothers hp').1⟩
  · intro x y f hx hy hxf hyf hw
    rcases hf.cases hspace h.refs hr hx hxf with
      ⟨hx', hxf', hxpte, hxout⟩ | ⟨va, hva, hfva, hnow⟩
    · rw [hxpte] at hw
      rcases hf.cases hspace h.refs hr hy hyf with
        ⟨hy', hyf', -, -⟩ | ⟨va, hva, hfva, -⟩
      · exact h.alone hx' hy' hxf' hyf' hw
      · -- the page of `x` was shared, so `x` was not the only slot
        have hslot : slotOf mm.pgdir va ∈ slots roots :=
          slotOf_mem hr (pdx1_user (inVmas_lt hspace.ok hva))
        have hsame := h.alone hx' hslot hxf' hfva hw
        exact absurd ⟨va, hva, hsame.symm⟩ hxout
    · exact absurd hw hnow
  · rw [view_update fun _ hp' => (hothers hp').2, Option.map_some, hchildIm]
    refine Eager.Step.fork ?_ ?_
    · rw [view, hp, Option.map_some]
    · rw [view, hq, Option.map_none]

-- ============================================================= store

/-- The bytes of the process after its store. -/
theorem Owned.image {va b f : Nat} (hr : mm.pgdir ∈ roots)
    (hpgdir : mm'.pgdir = mm.pgdir) (hlist : mm'.mmapList = mm.mmapList)
    (hva : va < usertop) (hb : b < 256)
    (hleaf : leafAt roots s (slotOf mm.pgdir va) = some f)
    (hu : hasFlag (pteAt roots s (slotOf mm.pgdir va)) pteU)
    (hread : hasFlag (pteAt roots s (slotOf mm.pgdir va)) pteR)
    (ho : Owned roots lost (slotOf mm.pgdir va) s s'
      (writeByte (s.mem f) va b)) :
    image s' mm' = { image s mm with
      byte := Function.update (image s mm).byte va (some b) } := by
  have hbyte : (Cow.image s' mm').byte
      = Function.update (Cow.image s mm).byte va (some b) := by
    funext vb
    rw [image_byte (hpgdir.symm ▸ hr), hpgdir]
    by_cases heq : vb = va
    · subst heq
      rw [Function.update_self, if_pos hva, ho.loadAt hb hleaf hu hread,
        if_pos rfl]
    · rw [Function.update_of_ne heq, image_byte hr]
      by_cases hvb : vb < usertop
      · rw [if_pos hvb, if_pos hvb]
        by_cases hpage : vb / pgsize = va / pgsize
        · -- another byte of the page
          have hoff : pgoff vb ≠ pgoff va := by
            rw [pgoff_eq, pgoff_eq]
            unfold pgsize at *
            omega
          rw [slotOf_eq hpage, ho.loadAt hb hleaf hu hread, if_neg hoff]
        · exact loadAt_congr (ho.others (slotOf_mem hr (pdx1_user hvb))
            (slotOf_ne hvb hva hpage))
      · rw [if_neg hvb, if_neg hvb]
  have hwritable : Writable mm' = Writable mm := by
    funext vb
    rw [Writable, Writable, hlist]
  unfold Cow.image at *
  rw [Image.mk.injEq]
  exact ⟨hbyte, hwritable⟩

/-- A store keeps the invariant and shows its byte to the process alone. -/
theorem Inv.store (h : Inv roots lost c) {p va b f : Nat}
    (hp : c.procs p = some mm) (hva : Writable mm va) (hb : b < 256)
    (hleaf : leafAt roots c.machine (slotOf mm.pgdir va) = some f)
    (hpgdir : mm'.pgdir = mm.pgdir) (hlist : mm'.mmapList = mm.mmapList)
    (hcount : mm'.mmCount = mm.mmCount)
    (hcache : ∀ vma ∈ mm'.mmapCache, vma ∈ mm.mmapList)
    (ho : Owned roots lost (slotOf mm.pgdir va) c.machine s'
      (writeByte (c.machine.mem f) va b)) :
    Inv roots lost ⟨s', Function.update c.procs p (some mm')⟩
      ∧ Eager.Step (view c) (.store p va b)
        (view ⟨s', Function.update c.procs p (some mm')⟩) := by
  have hr := h.root hp
  have hspace := h.space hp
  have hin := hva.inVmas
  have hlt := inVmas_lt hspace.ok hin
  have hother : ∀ {p' mm₁}, p' ≠ p → c.procs p' = some mm₁ →
      Space roots s' mm₁ ∧ image s' mm₁ = image c.machine mm₁ := by
    intro p' mm₁ hne hp'
    refine (h.space hp').same (h.root hp') (h.root hp') fun x hx hxr => ?_
    refine ho.others hx ?_
    rintro rfl
    exact hne (h.root_inj hp' hp hxr.symm)
  -- the entry in any slot is the page's own, or what it was
  have hslot : ∀ x ∈ slots roots, x = slotOf mm.pgdir va
      ∨ SameView roots c.machine roots s' x := by
    intro x hx
    by_cases hne : x = slotOf mm.pgdir va
    · exact Or.inl hne
    · exact Or.inr (ho.others hx hne)
  have hmem : ∀ {vb}, InVmas mm.mmapList vb →
      slotOf mm.pgdir vb ∈ slots roots := fun hvb =>
    slotOf_mem hr (pdx1_user (inVmas_lt hspace.ok hvb))
  obtain ⟨f', hleaf', -, halone⟩ := ho.page
  have hspace' : Space roots s' mm' := by
    refine ⟨hcount.trans hspace.count, hlist ▸ hspace.sorted,
      hlist ▸ hspace.ok, hlist ▸ hcache, ?_, ?_, ?_, ?_⟩
    · intro vb hvb
      rw [hlist] at hvb
      rw [hpgdir]
      rcases hslot _ (hmem hvb) with heq | hsame
      · rw [heq, hleaf']
        exact fun h => by cases h
      · rw [leafAt, hsame.1]
        exact hspace.full vb hvb
    · intro x hx hxr hne
      rw [hlist, hpgdir]
      rw [hpgdir] at hxr
      rcases hslot x hx with rfl | hsame
      · exact ⟨va, hin, rfl⟩
      · rw [leafAt, hsame.1] at hne
        exact hspace.inside x hx hxr hne
    · intro vb hvb
      rw [hlist] at hvb
      rw [hpgdir]
      rcases hslot _ (hmem hvb) with heq | hsame
      · rw [heq]
        exact ho.user
      · rw [hsame.1]
        exact hspace.user vb hvb
    · intro vb hvb
      rw [Writable, hlist] at hvb
      rw [hpgdir]
      rcases hslot _ (hmem (Writable.inVmas hvb)) with heq | hsame
      · rw [heq]
        exact ho.read
      · rw [hsame.1]
        exact hspace.read vb hvb
  refine ⟨⟨h.toSpaces.update ho.inv ?_ ?_, ?_⟩, ?_⟩
  · intro mm₁ heq
    cases heq
    refine ⟨hpgdir.symm ▸ hr, hspace', fun hne hp' heq => hne ?_⟩
    exact h.root_inj hp' hp (heq.trans hpgdir)
  · exact fun hne hp' => ⟨h.root hp', (hother hne hp').1⟩
  · intro x y g hx hy hxg hyg hw
    dsimp only at hxg hyg hw
    rcases hslot x hx with rfl | hxsame
    · rw [hleaf'] at hxg
      cases hxg
      exact halone y hy hyg
    · rcases hslot y hy with rfl | hysame
      · rw [hleaf'] at hyg
        cases hyg
        exact (halone x hx hxg).symm
      · rw [leafAt, hxsame.1] at hxg
        rw [leafAt, hysame.1] at hyg
        rw [hxsame.1] at hw
        exact h.alone hx hy hxg hyg hw
  · rw [view_update fun hne hp' => (hother hne hp').2, Option.map_some,
      ho.image hr hpgdir hlist hlt hb hleaf (hspace.user va hin)
        (hspace.read va hva)]
    refine Eager.Step.store ?_ hva
    rw [view, hp, Option.map_some]

-- ============================================================== exit

/-- An exit returns, keeps the invariant, and no other process notices. -/
theorem Inv.exit (h : Inv roots lost c) {p : Nat} (hp : c.procs p = some mm) :
    ∃ s' lost', exitMm c.machine mm = some s'
      ∧ Inv (roots.erase mm.pgdir) lost'
        ⟨s', Function.update c.procs p none⟩
      ∧ Eager.Step (view c) (.exit p)
        (view ⟨s', Function.update c.procs p none⟩) := by
  have hr := h.root hp
  have hspace := h.space hp
  let mm₀ : MmStruct := { mm with mmCount := mm.mmCount - 1 }
  have hcount : mm₀.mmCount = 0 := by
    show mm.mmCount - 1 = 0
    rw [hspace.count]
    rfl
  obtain ⟨s₁, lost', hrun, hinv, hview⟩ : ∃ s₁ lost',
      exitMmap c.machine mm₀ = some s₁
        ∧ RefInv (roots.erase mm.pgdir) lost' noHold (freePage s₁ mm.pgdir)
        ∧ ∀ x ∈ slots (roots.erase mm.pgdir), SameView roots c.machine
            (roots.erase mm.pgdir) (freePage s₁ mm.pgdir) x :=
    exitMmap_spec h.refs hr hcount hspace.ok hspace.inside
  let s' := freePage s₁ mm.pgdir
  have hexit : exitMm c.machine mm = some s' := by
    unfold exitMm
    dsimp only
    have hrun' : exitMmap c.machine
        { mm with mmCount := mm.mmCount - 1 } = some s₁ := hrun
    rw [if_pos hcount, hrun']
    rfl
  have hother : ∀ {p' mm'}, p' ≠ p → c.procs p' = some mm' →
      mm'.pgdir ∈ roots.erase mm.pgdir
        ∧ Space (roots.erase mm.pgdir) s' mm'
        ∧ image s' mm' = image c.machine mm' := by
    intro p' mm' hne hp'
    have hr' : mm'.pgdir ∈ roots.erase mm.pgdir := by
      refine Finset.mem_erase.mpr ⟨fun heq => hne ?_, h.root hp'⟩
      exact h.root_inj hp' hp heq
    exact ⟨hr', (h.space hp').same (h.root hp') hr' fun x hx _ => hview x hx⟩
  refine ⟨s', lost', hexit,
    ⟨h.toSpaces.update hinv (fun h => by cases h) ?_, ?_⟩, ?_⟩
  · exact fun hne hp' => ⟨(hother hne hp').1, (hother hne hp').2.1⟩
  · intro x y f hx hy hxf hyf hw
    dsimp only at hxf hyf hw
    have hsub : ∀ {x}, x ∈ slots (roots.erase mm.pgdir) →
        x ∈ slots roots := by
      rintro ⟨r, d1, d0, t⟩ hx
      rw [mem_slots] at hx ⊢
      exact ⟨Finset.mem_of_mem_erase hx.1, hx.2⟩
    rw [leafAt, (hview x hx).1] at hxf
    rw [leafAt, (hview y hy).1] at hyf
    rw [(hview x hx).1] at hw
    exact h.alone (hsub hx) (hsub hy) hxf hyf hw
  · rw [view_update fun hne hp' => (hother hne hp').2.2, Option.map_none]
    refine Eager.Step.exit (show _ = some (image c.machine mm) from ?_)
    rw [view, hp, Option.map_some]

-- ============================================================== runs

/-- Fuel for every area of a process. -/
theorem Space.fuel (h : Space roots s mm) (vma : Vma)
    (hin : vma ∈ mm.mmapList) {fuel : Nat} (hfuel : usertop ≤ fuel) :
    vma.vmEnd - vma.vmStart ≤ fuel * pgsize := by
  have htop := (h.ok vma hin).2.2.2.2
  unfold pgsize
  omega

/-- What a store finds. -/
theorem Inv.store_spec (h : Inv roots lost c) {p va b : Nat}
    (hp : c.procs p = some mm) (hva : Writable mm va) (hb : b < 256) :
    (∃ mm' s', Cow.store c.machine mm va b = some (mm', s')
        ∧ Inv roots lost ⟨s', Function.update c.procs p (some mm')⟩
        ∧ Eager.Step (view c) (.store p va b)
          (view ⟨s', Function.update c.procs p (some mm')⟩))
      ∨ Cow.store c.machine mm va b = none ∧ c.machine.free = ∅ := by
  have hr := h.root hp
  have hspace := h.space hp
  have hin := hva.inVmas
  have hlt := inVmas_lt hspace.ok hin
  obtain ⟨vma, hvma, hhas, hflag⟩ := id hva
  obtain ⟨f, hleaf, -⟩ := hspace.page h.refs hr hin
  have hslot : slotOf mm.pgdir va ∈ slots roots :=
    slotOf_mem hr (pdx1_user hlt)
  rcases Cow.store_spec h.refs hr hlt hspace.sorted hspace.cache hvma hhas
      hflag hleaf (hspace.user va hin) (hspace.read va hva)
      (fun hw y hy hyf => h.alone hslot hy hleaf hyf hw) with
    ⟨mm', s', hrun, hmm', howned⟩ | hfail
  · refine Or.inl ⟨mm', s', hrun, ?_⟩
    rcases hmm' with rfl | rfl
    · exact h.store hp hva hb hleaf rfl rfl rfl hspace.cache howned
    · refine h.store hp hva hb hleaf rfl rfl rfl ?_ howned
      intro v hv
      cases hv
      exact hvma
  · exact Or.inr hfail

/-- A step keeps the invariant and is one of the eager system. -/
theorem Inv.step (h : Inv roots lost c) {l : Label} (hstep : Step c l c') :
    (∃ roots' lost', Inv roots' lost' c')
      ∧ Eager.Step (view c) l (view c') := by
  cases hstep with
  | @fork p q mm child s' hp hq hret =>
      obtain ⟨fuel, hret⟩ := hret
      have hspace := h.space hp
      have hmore := copyMm_more (Nat.le_add_right fuel usertop) hret
      rcases copyMm_spec h.refs (h.root hp) hspace.sorted hspace.ok
          hspace.full (fun vma hin =>
            hspace.fuel vma hin (Nat.le_add_left usertop fuel)) with
        ⟨child', s₁, hrun, hforked⟩ | ⟨hfail, -⟩
      · rw [hmore] at hrun
        cases hrun
        have hboth := h.fork hp hq hforked
        exact ⟨⟨_, _, hboth.1⟩, hboth.2⟩
      · exact absurd hmore (hfail child s')
  | @load p va mm hp hva =>
      refine ⟨⟨_, _, h⟩, ?_⟩
      have hbyte : userLoad c.machine mm.pgdir va
          = (image c.machine mm).byte va := (if_pos hva).symm
      rw [hbyte]
      refine Eager.Step.load ?_
      rw [view, hp, Option.map_some]
  | @store p va b mm mm' s' hp hva hb hrun =>
      rcases h.store_spec hp hva hb with ⟨mm₁, s₁, hrun₁, hboth⟩ | ⟨hfail, -⟩
      · rw [hrun] at hrun₁
        cases hrun₁
        exact ⟨⟨_, _, hboth.1⟩, hboth.2⟩
      · rw [hrun] at hfail
        cases hfail
  | @exit p mm s' hp hrun =>
      obtain ⟨s₁, lost', hrun₁, hboth⟩ := h.exit hp
      rw [hrun] at hrun₁
      cases hrun₁
      exact ⟨⟨_, _, hboth.1⟩, hboth.2⟩

theorem Inv.progress (h : Inv roots lost c) : Progress c where
  exit hp := by
    obtain ⟨s', -, hrun, -⟩ := h.exit hp
    exact ⟨_, Step.exit hp hrun⟩
  store hp hva hb hfree := by
    rcases h.store_spec hp hva hb with ⟨mm', s', hrun, -⟩ | ⟨-, hempty⟩
    · exact ⟨_, Step.store hp hva hb hrun⟩
    · exact absurd hempty (Finset.nonempty_iff_ne_empty.mp hfree)
  fork hp hq hfree := by
    have hspace := h.space hp
    rcases copyMm_spec h.refs (h.root hp) hspace.sorted hspace.ok hspace.full
        (fun vma hin => hspace.fuel vma hin le_rfl) with
      ⟨child, s', hrun, -⟩ | ⟨-, hfew⟩
    · exact ⟨_, Step.fork hp hq ⟨_, hrun⟩⟩
    · omega

theorem Start.inv (h : Start roots c) : Inv roots ∅ c :=
  ⟨h.spaces, fun hx hy hxf hyf _ => (h.once hx hy hxf hyf).symm⟩

/-- Copy-on-write refines eager copying: every run is a run of the system
that copies all pages at fork, with the same loads, and at its end every
process sees the memory it has there. A store is seen by no other process.
And the run can go on: no step is refused while enough pages are free. -/
theorem cow_refines_eager {c₀ : State M} {ls : List Label}
    (h : Start roots c₀) (hrun : Run Step c₀ ls c) :
    Run Eager.Step (view c₀) ls (view c)
      ∧ (∀ {p va b c'}, Step c (.store p va b) c' →
          ∀ q, q ≠ p → view c' q = view c q)
      ∧ Progress c := by
  let R (c : State M) (σ : Eager.State) : Prop :=
    (∃ roots lost, Inv roots lost c) ∧ σ = view c
  have hR : R c₀ (view c₀) := ⟨⟨roots, ∅, h.inv⟩, rfl⟩
  obtain ⟨σ, heager, ⟨roots', lost', hinv⟩, rfl⟩ :=
    hrun.simulates (R := R) (by
      intro c l c' σ hc hstep
      obtain ⟨⟨roots', lost', hinv⟩, rfl⟩ := hc
      obtain ⟨hinv', hstep'⟩ := hinv.step hstep
      exact ⟨view c', hstep', hinv', rfl⟩) hR
  refine ⟨heager, ?_, hinv.progress⟩
  intro p va b c' hstep q hne
  exact (hinv.step hstep).2.store_other hne

-- ======================================================= a first run

/-- An area of one page. -/
def firstMm : MmStruct where
  mmapList := [⟨0x800000, 0x801000, vmRead ||| vmWrite⟩]
  mmapCache := none
  pgdir := 0x80300
  mapCount := 1
  mmCount := 1

/-- Cleared memory after the page was mapped. -/
def firstMachine : Machine lowestFirst :=
  match pgdirAllocPage cleared 0x80300 0x800000 (pteU ||| readWrite) with
  | some (_, s) => s
  | none => cleared

/-- A single process. -/
def first : State lowestFirst where
  machine := firstMachine
  procs := fun p => if p = 1 then some firstMm else none

theorem first_start : Start {0x80300} first := by
  have hr : (0x80300 : Nat) ∈ ({0x80300} : Finset Nat) := by simp
  have hla : pdx1 0x800000 < 511 := pdx1_user (by decide)
  obtain ⟨s₁, halloc⟩ : ∃ s₁, allocPage cleared = some (0x80301, s₁) :=
    ⟨_, rfl⟩
  obtain ⟨h₁, hpage, -, -⟩ := cleared_fresh_one.refInv.allocPage halloc
  obtain ⟨b, s₂, hrun, h₂, he, -, hpte, -, -⟩ := pageInsert_spec h₁ hr hla
    hpage (show pteU ||| readWrite < 2 ^ 10 by decide)
  have hmap : ((pgdirAllocPage cleared 0x80300 0x800000
      (pteU ||| readWrite)).map Prod.fst) = some (some 0x80301) := by
    decide +kernel
  have hb : b = true := by
    cases b with
    | true => rfl
    | false =>
        rw [pgdirAllocPage, halloc] at hmap
        dsimp only at hmap
        rw [hrun] at hmap
        cases hmap
  subst hb
  have hmachine : first.machine = s₂ := by
    show firstMachine = s₂
    rw [firstMachine, pgdirAllocPage, halloc]
    dsimp only
    rw [hrun]
  have hentry : pteAt {0x80300} s₂ (slotOf 0x80300 0x800000)
      = pteCreate 0x80301 (pteV ||| (pteU ||| readWrite)) := hpte rfl
  have honly : ∀ {x f}, x ∈ slots {0x80300} →
      leafAt {0x80300} s₂ x = some f → x = slotOf 0x80300 0x800000 := by
    intro x f hx hleaf
    by_contra hne
    have hsame : pteAt {0x80300} s₂ x = pteAt {0x80300} cleared x := by
      rw [he.pte_eq hne]
      exact pteAt_congr (fun _ _ f _ => by
        rw [(allocPage_spec halloc).2.2.1]) x
    have hnone := cleared_fresh_one.unmapped x hx
    rw [leafAt, hsame, ← leafAt, hnone] at hleaf
    cases hleaf
  have hproc : ∀ {p mm}, first.procs p = some mm → p = 1 ∧ mm = firstMm := by
    intro p mm hp
    by_cases h1 : p = 1
    · subst h1
      cases hp
      exact ⟨rfl, rfl⟩
    · have hnone : first.procs p = none := if_neg h1
      rw [hnone] at hp
      cases hp
  have hslot : ∀ {va}, InVmas firstMm.mmapList va →
      slotOf 0x80300 va = slotOf 0x80300 0x800000 := by
    rintro va ⟨vma, hin, h1, h2⟩
    rw [firstMm, List.mem_singleton] at hin
    subst hin
    apply slotOf_eq
    unfold pgsize
    dsimp only at h1 h2
    omega
  have hspace : Space {0x80300} s₂ firstMm := by
    refine ⟨rfl, List.pairwise_singleton _ _, ?_, (fun _ h => by cases h), ?_,
      ?_, ?_, ?_⟩
    · intro vma hin
      rw [firstMm, List.mem_singleton] at hin
      subst hin
      exact ⟨rfl, rfl, by decide, by decide, by decide⟩
    · intro va hva
      rw [leafAt, show firstMm.pgdir = 0x80300 from rfl, hslot hva, hentry,
        frameOf_pteCreate hpage.1.lt (by decide)]
      exact fun h => by cases h
    · intro x hx _ hleaf
      obtain ⟨f, hf⟩ := Option.ne_none_iff_exists'.mp hleaf
      exact ⟨0x800000, ⟨_, List.mem_singleton_self _, by decide⟩, honly hx hf⟩
    · intro va hva
      rw [show firstMm.pgdir = 0x80300 from rfl, hslot hva, hentry,
        hasFlag_pteU, testBit_pteCreate (by decide) (by decide)]
      decide
    · intro va hva
      rw [show firstMm.pgdir = 0x80300 from rfl, hslot hva.inVmas, hentry,
        hasFlag_pteR, testBit_pteCreate (by decide) (by decide)]
      decide
  refine ⟨⟨?_, ?_, ?_, ?_⟩, ?_⟩
  · exact hmachine.symm ▸ h₂
  · intro p mm hp
    rw [(hproc hp).2]
    exact hr
  · intro p q mm mm' hp hq _
    rw [(hproc hp).1, (hproc hq).1]
  · intro p mm hp
    rw [(hproc hp).2, hmachine]
    exact hspace
  · intro x y f hx hy hxf hyf
    rw [hmachine] at hxf hyf
    rw [honly hx hxf, honly hy hyf]

/-- The process forks and stores a byte, which its child does not see. -/
theorem cow_refines_eager_once : ∃ c, Run Step first
    [.fork 1 2, .store 1 0x800000 7] c
      ∧ (view c 1).map (·.byte 0x800000) = some (some 7)
      ∧ (view c 2).map (·.byte 0x800000) = some (some 0) := by
  have hwritable : Writable firstMm 0x800000 :=
    ⟨_, List.mem_singleton_self _, by decide, by decide⟩
  have hbyte : (view first 1).map (·.byte 0x800000) = some (some 0) := by
    decide +kernel
  -- the fork, which leaves a free page
  obtain ⟨child, s₁, hcopy, hfree⟩ : ∃ child s₁,
      copyMm 1 firstMachine firstMm = some (some child, s₁)
        ∧ s₁.free.Nonempty := by
    have hrun : (copyMm 1 firstMachine firstMm).map
        (fun r => (r.1.isSome, r.2.free.card)) = some (true, 1) := by
      decide +kernel
    cases hcopy : copyMm 1 firstMachine firstMm with
    | none => rw [hcopy] at hrun; cases hrun
    | some r =>
        obtain ⟨o, s₁⟩ := r
        rw [hcopy, Option.map_some, Option.some.injEq, Prod.mk.injEq] at hrun
        obtain ⟨child, rfl⟩ := Option.isSome_iff_exists.mp hrun.1
        refine ⟨child, s₁, rfl, Finset.card_pos.mp ?_⟩
        rw [hrun.2]
        decide
  have hfork : Step first (.fork 1 2)
      ⟨s₁, Function.update first.procs 2 (some child)⟩ :=
    Step.fork rfl rfl ⟨1, hcopy⟩
  obtain ⟨heager₁, -, hprogress⟩ :=
    cow_refines_eager first_start (Run.single hfork)
  obtain ⟨c₂, hstore⟩ := hprogress.store (p := 1) (b := 7) rfl hwritable
    (by decide) hfree
  have hrun : Run Step first [.fork 1 2, .store 1 0x800000 7] c₂ :=
    .cons hfork (.single hstore)
  obtain ⟨heager₂, -, -⟩ := cow_refines_eager first_start hrun
  refine ⟨c₂, hrun, ?_⟩
  -- the eager run determines what is seen
  generalize view c₂ = σ at heager₂ ⊢
  cases heager₂ with
  | cons h₁ h₂ =>
      cases h₂ with
      | cons h₂ h₃ =>
          cases h₃
          cases h₁ with
          | @fork _ _ im hp _ =>
              cases h₂ with
              | @store _ _ _ im' hp' _ =>
                  rw [hp, Option.map_some] at hbyte
                  rw [Function.update_of_ne (by decide), hp] at hp'
                  cases hp'
                  refine ⟨?_, ?_⟩
                  · rw [Function.update_self, Option.map_some]
                    dsimp only
                    rw [Function.update_self]
                  · rw [Function.update_of_ne (by decide),
                      Function.update_self, Option.map_some]
                    exact hbyte

end Ucore.Cow
