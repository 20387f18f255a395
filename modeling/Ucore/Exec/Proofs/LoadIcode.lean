/-
Well-formed images, and what the loader reads of them.

The fields of the headers are those of the file; where the headers lie
inside the image, the loader's pointers read them (`ePhoff_eq`,
`proghdr_eq`, ...) and its loop over the program headers visits the headers
of the table in order (`phAddr_add`).

The loop of `load_icode` over the program headers of a well-formed image.

`Built` is the state after some program headers: the areas of the segments
so far, their pages and their bytes, and nothing else below the new root. A
header adds its segment (`Built.segment`), so that the loop builds all of
them or runs out of pages (`loadPhs_spec`). What is there when it runs out
can be taken down again (`cleanup_spec`).
-/
import Ucore.Exec.Proofs.Segment
import Ucore.Mm.Proofs.MmMap

namespace Ucore.Exec

open Mm

namespace Image

variable (image : Image)

/-- The byte of the file at an offset. -/
def fileByte (off : Nat) : UInt8 := image.bytes.getD off 0

/-- A field of the file. -/
def word (off n : Nat) : Nat := getWord image.fileByte off n

/-- `e_phoff`. -/
def phoff : Nat := image.word 32 8

/-- `e_phnum`. -/
def phnum : Nat := image.word 56 2

/-- The offset of a program header. -/
def phOff (i : Nat) : Nat := image.phoff + i * proghdrSize

/-- The type of a program header. -/
def typeOf (i : Nat) : Nat := image.word (image.phOff i) 4

/-- The other fields of a program header. -/
def header (i : Nat) : Proghdr where
  pFlags := image.word (image.phOff i + 4) 4
  pOffset := image.word (image.phOff i + 8) 8
  pVa := image.word (image.phOff i + 16) 8
  pFilesz := image.word (image.phOff i + 32) 8
  pMemsz := image.word (image.phOff i + 40) 8

/-- The segments among the first program headers. -/
def segmentsUpTo (n : Nat) : List Proghdr :=
  ((List.range n).filter fun i => image.typeOf i = elfPtLoad).map image.header

/-- The segments of the program: the headers of type `PT_LOAD`. -/
def segments : List Proghdr := image.segmentsUpTo image.phnum

end Image

/-- The pages of two segments are apart. -/
def Proghdr.Apart (p q : Proghdr) : Prop :=
  p.pastLast ≤ q.first ∨ q.pastLast ≤ p.first

/-- A well-formed image: it does not wrap around the address space, its
headers lie inside it, and its segments are loadable, below the stack and
apart. -/
structure Image.WellFormed (image : Image) : Prop where
  fits : image.binary + image.size < 2 ^ 64
  header : elfhdrSize ≤ image.size
  magic : image.word 0 4 = elfMagic
  table : image.phoff + image.phnum * proghdrSize ≤ image.size
  loadable : ∀ ph ∈ image.segments, image.Loadable ph
  low : ∀ ph ∈ image.segments, ph.pastLast ≤ ustacktop - ustacksize
  apart : image.segments.Pairwise Proghdr.Apart

section Reading

variable {image : Image} {off n i : Nat}

theorem getWord_byteAt : getWord image.byteAt (image.binary + off) n
    = image.word off n := by
  apply getWord_congr
  intro k _
  rw [Image.byteAt, Image.fileByte]
  congr 1
  omega

/-- A field inside the image is read. -/
theorem field_eq (h : off + n ≤ image.size) :
    image.field (image.binary + off) n = some (image.word off n) := by
  have hinside : image.Inside (image.binary + off) n := Or.inr (by omega)
  rw [Image.field, if_pos hinside, getWord_byteAt]

/-- The same through an address that is computed. -/
theorem field_add64 {a : Nat} (hfits : image.binary + image.size < 2 ^ 64)
    (h : a + off + n ≤ image.size) :
    image.field (add64 (image.binary + a) off) n
      = some (image.word (a + off) n) := by
  rw [add64_eq (by omega), Nat.add_assoc, field_eq h]

theorem ePhoff_eq (h : image.WellFormed) :
    image.ePhoff = some image.phoff := by
  have hsize := h.header
  unfold elfhdrSize at hsize
  have hin : 0 + 32 + 8 ≤ image.size := by omega
  have hfield := field_add64 h.fits hin
  rwa [Nat.add_zero, Nat.zero_add] at hfield

theorem ePhnum_eq (h : image.WellFormed) :
    image.ePhnum = some image.phnum := by
  have hsize := h.header
  unfold elfhdrSize at hsize
  have hin : 0 + 56 + 2 ≤ image.size := by omega
  have hfield := field_add64 h.fits hin
  rwa [Nat.add_zero, Nat.zero_add] at hfield

theorem eEntry_eq (h : image.WellFormed) :
    image.eEntry = some (image.word 24 8) := by
  have hsize := h.header
  unfold elfhdrSize at hsize
  have hin : 0 + 24 + 8 ≤ image.size := by omega
  have hfield := field_add64 h.fits hin
  rwa [Nat.add_zero, Nat.zero_add] at hfield

theorem eMagic_eq (h : image.WellFormed) : image.eMagic = some elfMagic := by
  have hsize := h.header
  unfold elfhdrSize at hsize
  have hin : 0 + 4 ≤ image.size := by omega
  have hfield := field_eq hin
  rw [Nat.add_zero, h.magic] at hfield
  exact hfield

/-- The headers of the table lie inside the image. -/
theorem phOff_inside (h : image.WellFormed) (hi : i < image.phnum) :
    image.phOff i + proghdrSize ≤ image.size := by
  have htable := h.table
  unfold Image.phOff
  have hmul : (i + 1) * proghdrSize ≤ image.phnum * proghdrSize :=
    Nat.mul_le_mul_right _ hi
  rw [Nat.add_mul, Nat.one_mul] at hmul
  omega

theorem pType_eq (h : image.WellFormed) (hi : i < image.phnum) :
    image.pType (image.binary + image.phOff i) = some (image.typeOf i) := by
  have hin := phOff_inside h hi
  unfold proghdrSize at hin
  exact field_eq (by omega)

theorem proghdr_eq (h : image.WellFormed) (hi : i < image.phnum) :
    image.proghdr (image.binary + image.phOff i)
      = some (image.header i) := by
  have hin := phOff_inside h hi
  unfold proghdrSize at hin
  have hfits := h.fits
  unfold Image.proghdr
  rw [field_add64 hfits (by omega), field_add64 hfits (by omega),
    field_add64 hfits (by omega), field_add64 hfits (by omega),
    field_add64 hfits (by omega)]
  rfl

/-- From one header to the next. -/
theorem phAddr_add (h : image.WellFormed) (hi : i < image.phnum) :
    add64 (image.binary + image.phOff i) proghdrSize
      = image.binary + image.phOff (i + 1) := by
  have hin := phOff_inside h hi
  have hfits := h.fits
  rw [add64_eq (by omega)]
  unfold Image.phOff
  rw [Nat.add_mul, Nat.one_mul]
  omega

/-- The end of the table. -/
theorem phEnd_eq (h : image.WellFormed) :
    add64 image.binary image.phoff = image.binary + image.phOff 0
      ∧ add64 (add64 image.binary image.phoff) (image.phnum * proghdrSize)
        = image.binary + image.phOff image.phnum := by
  have htable := h.table
  have hfits := h.fits
  unfold Image.phOff
  refine ⟨?_, ?_⟩
  · rw [add64_eq (by omega), Nat.zero_mul, Nat.add_zero]
  · rw [add64_add64, add64_eq (by omega)]

/-- A header that is no segment, and one that is. -/
theorem segmentsUpTo_succ (image : Image) (i : Nat) :
    image.segmentsUpTo (i + 1)
      = if image.typeOf i = elfPtLoad then
          image.segmentsUpTo i ++ [image.header i]
        else image.segmentsUpTo i := by
  unfold Image.segmentsUpTo
  rw [List.range_succ, List.filter_append, List.map_append]
  by_cases htype : image.typeOf i = elfPtLoad
  · simp [htype]
  · simp [htype]

theorem segmentsUpTo_prefix (image : Image) {i j : Nat} (hij : i ≤ j) :
    image.segmentsUpTo i <+: image.segmentsUpTo j := by
  induction hij with
  | refl => exact List.prefix_refl _
  | step _ ih =>
      rw [segmentsUpTo_succ]
      split
      · exact ih.trans (List.prefix_append _ _)
      · exact ih

end Reading

end Ucore.Exec

namespace Ucore.Exec

open Mm

variable {M : PmmManager} {roots : Finset Nat} {lost : Set Nat}
  {r : Nat} {s s₀ : Machine M} {l l' : Load M} {image : Image}
  {done : List Proghdr} {ph : Proghdr} {K : Kmalloc M}

-- ============================================================= areas

/-- The area of a segment. -/
def Proghdr.area (ph : Proghdr) : Vma :=
  requested ph.pVa ph.pMemsz (vmFlags ph.pFlags)

/-- The pages of a segment. -/
def Proghdr.pages (ph : Proghdr) : List Nat := pagesFrom ph.first ph.pastLast

theorem area_eq (h : image.Loadable ph) :
    ph.area = ⟨ph.first, ph.pastLast, vmFlags ph.pFlags⟩ := by
  have hfits := h.fits
  have htop : usertop = 2147483648 := rfl
  have hmod : (ph.pVa + ph.pMemsz) % 2 ^ 64 = ph.pVa + ph.pMemsz :=
    Nat.mod_eq_of_lt (by omega)
  rw [Proghdr.area, requested, hmod]
  rfl

/-- The ends of a segment are page boundaries. -/
theorem area_ok (h : image.Loadable ph) : VmaOk ph.area := by
  rw [area_eq h]
  exact ⟨rounddown_mod _, (roundup_user h.fits).2.2, h.user⟩

/-- Segments that are apart share no slot. -/
theorem apart_slot {p q : Proghdr} {a : Nat} (hp : image.Loadable p)
    (hq : image.Loadable q) (hapart : p.Apart q)
    (ha : InRange p.first p.pastLast a) :
    ¬ SlotAt r (InRange q.first q.pastLast) (slotOf r a) := by
  intro hx
  obtain ⟨b, ⟨hb1, hb2⟩, heq⟩ := hx
  obtain ⟨ha1, ha2⟩ := ha
  have hpUser := hp.user
  have hqUser := hq.user
  have hpLast : p.pastLast % pgsize = 0 := (roundup_user hp.fits).2.2
  have hqLast : q.pastLast % pgsize = 0 := (roundup_user hq.fits).2.2
  apply slotOf_ne _ _ _ heq
  · exact Nat.lt_of_lt_of_le ha2 hpUser.2.2
  · exact Nat.lt_of_lt_of_le hb2 hqUser.2.2
  · unfold Proghdr.Apart at hapart
    unfold pgsize at *
    omega

/-- The addresses of a segment lie in its pages. -/
theorem inRange_pages (h : image.Loadable ph) {va : Nat} (h1 : ph.pVa ≤ va)
    (h2 : va < ph.pVa + ph.pMemsz) : InRange ph.first ph.pastLast va := by
  have hfirst := rounddown_le ph.pVa
  have hlast := (roundup_user h.fits).1
  exact ⟨hfirst.trans h1, Nat.lt_of_lt_of_le h2 hlast⟩

theorem inRange_of_mem (h : image.Loadable ph) {la : Nat}
    (hla : la ∈ ph.pages) : InRange ph.first ph.pastLast la := by
  obtain ⟨h1, h2, -⟩ := (mem_pagesFrom (rounddown_mod _)
    (roundup_user h.fits).2.2).mp hla
  exact ⟨h1, h2⟩

/-- `mm_map` of a vacant range: it becomes an area, unless `kmalloc` has no
page. -/
theorem mapArea_spec {addr len flags : Nat} (hareas : AreaList l.mm)
    (hvacant : Vacant l.mm (requested addr len flags)) :
    ∃ ret l', mapArea K l addr len flags = some (ret, l')
      ∧ l'.machine = { l.machine with pmm := (K.kmalloc l.machine.pmm).2 }
      ∧ l'.placed = l.placed
      ∧ (ret = .ok ∧ AreaList l'.mm
          ∧ l'.mm.mmapList.Perm (requested addr len flags :: l.mm.mmapList)
          ∧ l'.mm.pgdir = l.mm.pgdir ∧ l'.mm.mmCount = l.mm.mmCount
        ∨ ret = .noMem ∧ l'.mm = l.mm ∧ l.machine.free = ∅) := by
  unfold mapArea
  cases hk : K.kmalloc l.machine.pmm with
  | mk room pmm =>
      dsimp only
      cases room with
      | true =>
          obtain ⟨mm', hmap, hperm, heq, hareas'⟩ :=
            mmMap_vacant hareas hvacant
          rw [hmap]
          refine ⟨.ok, _, rfl, rfl, rfl, Or.inl ⟨rfl, hareas', hperm, ?_, ?_⟩⟩
          · rw [heq]
          · rw [heq]
      | false =>
          rw [mmMap_gap hvacant.1 hvacant.gap hareas.cached]
          refine ⟨.noMem, _, rfl, rfl, rfl, Or.inr ⟨rfl, rfl, ?_⟩⟩
          by_contra hne
          have hsome := K.kmalloc_some l.machine.pmm
            (Finset.nonempty_iff_ne_empty.mpr hne)
          rw [hk] at hsome
          cases hsome

-- ========================================================= the state

/-- What is there after the headers of some segments, relative to the state
`s₀` in which nothing is mapped below `r`. -/
structure Built (roots : Finset Nat) (lost : Set Nat) (r : Nat)
    (image : Image) (s₀ : Machine M) (done : List Proghdr) (l : Load M) :
    Prop where
  root : l.mm.pgdir = r
  count : l.mm.mmCount = 0
  areas : AreaList l.mm
  list : l.mm.mmapList.Perm (done.map Proghdr.area)
  grows : Grows roots lost (SlotAt r (InVmas l.mm.mmapList)) s₀ l.machine
  addrs : l.placed.map Prod.fst = (done.flatMap Proghdr.pages).reverse
  placed : ∀ e ∈ l.placed, e.2 ∈ s₀.free ∧ ∃ ph ∈ done, e.1 ∈ ph.pages
    ∧ pteAt roots l.machine (slotOf r e.1)
      = pteCreate e.2 (pteV ||| perm (vmFlags ph.pFlags))
  bytes : ∀ ph ∈ done, ∀ va, ph.pVa ≤ va → va < ph.pVa + ph.pMemsz →
    ∃ page, leafAt roots l.machine (slotOf r va) = some page
      ∧ byteOf (l.machine.mem page) (va % pgsize)
        = (image.content ph va).toNat
  alone : ∀ x y page, x ∈ slots roots → y ∈ slots roots → x.1 = r →
    leafAt roots l.machine x = some page →
    leafAt roots l.machine y = some page → y = x
  cost : s₀.free.card ≤ l.machine.free.card
    + (done.map fun ph => 1 + 3 * ph.pages.length).sum

/-- An address of another segment is in none of the areas. -/
theorem Built.outside (h : Built roots lost r image s₀ done l)
    (hload : ∀ p ∈ done, image.Loadable p) (hph : image.Loadable ph)
    (hapart : ∀ p ∈ done, p.Apart ph) {va : Nat}
    (hva : InRange ph.first ph.pastLast va) :
    ¬ SlotAt r (InVmas l.mm.mmapList) (slotOf r va) := by
  intro hx
  obtain ⟨b, ⟨v, hv, hb1, hb2⟩, heq⟩ := hx
  obtain ⟨p, hp, rfl⟩ := List.mem_map.mp (h.list.mem_iff.mp hv)
  rw [area_eq (hload p hp)] at hb1 hb2
  apply apart_slot (hload p hp) hph (hapart p hp) ⟨hb1, hb2⟩
  exact ⟨va, hva, heq.symm⟩

/-- A segment that is loaded is added. -/
theorem Built.segment {l₁ l₂ : Load M}
    (h : Built roots lost r image s₀ done l) (hr : r ∈ roots)
    (hload : ∀ p ∈ done, image.Loadable p) (hph : image.Loadable ph)
    (hapart : ∀ p ∈ done, p.Apart ph)
    (hgrows : Grows roots lost (fun _ => False) l.machine l₁.machine)
    (hcard : l.machine.free.card ≤ l₁.machine.free.card + 1)
    (hplaced : l₁.placed = l.placed) (hareas : AreaList l₁.mm)
    (hperm : l₁.mm.mmapList.Perm (ph.area :: l.mm.mmapList))
    (hroot : l₁.mm.pgdir = l.mm.pgdir) (hcount : l₁.mm.mmCount = l.mm.mmCount)
    (hdone : SegmentDone roots lost r image ph l₁ l₂) :
    Built roots lost r image s₀ (done ++ [ph]) l₂ := by
  obtain ⟨c, hfilled, hstart, hla⟩ := hdone
  have hnew : Grows roots lost (SlotAt r (InRange ph.first ph.pastLast))
      l₁.machine l₂.machine := by
    have hgrows := hfilled.grows
    rw [hla] at hgrows
    exact hgrows
  have hboth := (hgrows.weaken fun _ hx => hx.elim).trans hnew
  have hmem : ∀ v, v ∈ l₂.mm.mmapList ↔ v = ph.area ∨ v ∈ l.mm.mmapList := by
    intro v
    rw [hfilled.mm, hperm.mem_iff, List.mem_cons]
  refine ⟨?_, ?_, ?_, ?_, ?_, ?_, ?_, ?_, ?_, ?_⟩
  · rw [hfilled.mm, hroot, h.root]
  · rw [hfilled.mm, hcount, h.count]
  · rw [hfilled.mm]
    exact hareas
  · rw [hfilled.mm, List.map_append]
    exact hperm.trans ((h.list.cons _).trans
      (List.perm_append_singleton _ _).symm)
  · apply (h.grows.weaken _).trans (hboth.weaken _)
    · intro x hx
      obtain ⟨va, ⟨v, hv, hhas⟩, rfl⟩ := hx
      exact ⟨va, ⟨v, (hmem v).mpr (Or.inr hv), hhas⟩, rfl⟩
    · intro x hx
      obtain ⟨va, hva, rfl⟩ := hx
      refine ⟨va, ⟨ph.area, (hmem _).mpr (Or.inl rfl), ?_⟩, rfl⟩
      rw [area_eq hph]
      exact hva
  · rw [hfilled.addrs, hla, hplaced, h.addrs, List.flatMap_append,
      List.reverse_append]
    simp [Proghdr.pages, Proghdr.first]
  · intro e he
    rcases hfilled.placed e he with hold | ⟨h0, h1, h2, h3, h4⟩
    · rw [hplaced] at hold
      obtain ⟨hin, p, hp, hpage, hpte⟩ := h.placed e hold
      refine ⟨hin, p, List.mem_append_left _ hp, hpage, ?_⟩
      rw [hboth.pte, hpte]
      exact apart_slot (hload p hp) hph (hapart p hp)
        (inRange_of_mem (hload p hp) hpage)
    · rw [hla] at h2
      refine ⟨h.grows.free (hgrows.free h3), ph,
        List.mem_append_right _ (List.mem_singleton_self _), ?_, h4⟩
      exact (mem_pagesFrom (rounddown_mod _)
        (roundup_user hph.fits).2.2).mpr ⟨h1, h2, h0⟩
  · intro p hp va h1 h2
    rcases List.mem_append.mp hp with hp | hp
    · obtain ⟨page, hleaf, hbyte⟩ := h.bytes p hp va h1 h2
      have hva := inRange_pages (hload p hp) h1 h2
      have hout := apart_slot (r := r) (hload p hp) hph (hapart p hp) hva
      have hpd : pdx1 va < 511 :=
        pdx1_user (Nat.lt_of_lt_of_le hva.2 (hload p hp).user.2.2)
      refine ⟨page, ?_, ?_⟩
      · rw [hboth.leaf hout]
        exact hleaf
      · rw [(hboth.user page (h.grows.inv.mapped (slotOf_mem hr hpd) hleaf)).2]
        exact hbyte
    · obtain rfl := List.mem_singleton.mp hp
      rw [← hstart] at h2
      exact hfilled.bytes va h1 h2
  · intro x y page hx hy hxr hpx hpy
    by_cases hxn : SlotAt r (InRange ph.first ph.pastLast) x
    · obtain ⟨va, ⟨h1, h2⟩, rfl⟩ := hxn
      rw [← hla] at h2
      exact hfilled.alone va page y h1 h2 hpx hy hpy
    · by_cases hyn : SlotAt r (InRange ph.first ph.pastLast) y
      · obtain ⟨va, ⟨h1, h2⟩, rfl⟩ := hyn
        rw [← hla] at h2
        exact (hfilled.alone va page x h1 h2 hpy hx hpx).symm
      · rw [hboth.leaf hxn] at hpx
        rw [hboth.leaf hyn] at hpy
        exact h.alone x y page hx hy hxr hpx hpy
  · have hcost := h.cost
    have hcost' := hfilled.cost
    have hmod := (roundup_user hph.fits).2.2
    have hfirst := rounddown_mod ph.pVa
    have hlen : ph.pages.length = (ph.pastLast - ph.first) / pgsize := by
      simp [Proghdr.pages, pagesFrom]
    rw [List.map_append, List.sum_append, List.map_singleton,
      List.sum_singleton, hlen]
    rw [hla] at hcost'
    unfold Proghdr.first Proghdr.pastLast at *
    unfold pgsize at *
    omega

-- ====================================================== tearing down

/-- An address space that `exit_mmap` can take down: what is mapped below
its root is in its areas. -/
structure Removable (roots : Finset Nat) (lost : Set Nat) (r : Nat)
    (l : Load M) : Prop where
  root : l.mm.pgdir = r
  count : l.mm.mmCount = 0
  inv : RefInv roots lost noHold l.machine
  ok : ∀ v ∈ l.mm.mmapList, VmaOk v
  inside : ∀ x, x.1 = r → leafAt roots l.machine x ≠ none →
    SlotAt r (InVmas l.mm.mmapList) x

/-- What changes the areas' slots only keeps it so. -/
theorem Removable.of_grows (hroot : l.mm.pgdir = r)
    (hcount : l.mm.mmCount = 0) (hok : ∀ v ∈ l.mm.mmapList, VmaOk v)
    (hzero : ∀ x : Slot, x.1 = r → pteAt roots s₀ x = 0)
    (hgrows : Grows roots lost (SlotAt r (InVmas l.mm.mmapList)) s₀
      l.machine) : Removable roots lost r l := by
  refine ⟨hroot, hcount, hgrows.inv, hok, ?_⟩
  intro x hxr hleaf
  by_contra hx
  apply hleaf
  rw [hgrows.leaf hx, leafAt, hzero x hxr, frameOf_zero]

/-- The way out of a failed load returns. The other address spaces show what
they showed. -/
theorem cleanup_spec (current : Current) (ret : LoadRet) (hr : r ∈ roots)
    (h : Removable roots lost r l) :
    ∃ res lost', cleanup current ret l = .ok res ∧ res.ret = ret
      ∧ res.current = current
      ∧ RefInv (roots.erase r) lost' noHold res.machine
      ∧ ∀ x ∈ slots (roots.erase r),
        SameView roots l.machine (roots.erase r) res.machine x := by
  have hroot : l.mm.pgdir ∈ roots := by
    rw [h.root]
    exact hr
  obtain ⟨s', lost', hexit, hinv, hview⟩ :=
    exitMmap_spec h.inv hroot h.count h.ok (by
      intro x _ hxr hleaf
      rw [h.root] at hxr ⊢
      exact h.inside x hxr hleaf)
  rw [h.root] at hinv hview
  unfold cleanup
  rw [hexit]
  refine ⟨_, lost', rfl, rfl, rfl, ?_, ?_⟩
  · dsimp only [putPgdir]
    rw [h.root]
    exact hinv
  · dsimp only [putPgdir]
    rw [h.root]
    exact hview

-- ======================================================= the headers

/-- The pages that the segments take at most: an area's, and for each page
two page tables. -/
def need (done : List Proghdr) : Nat :=
  (done.map fun ph => 1 + 3 * ph.pages.length).sum

theorem need_le {done more : List Proghdr} (h : done <+: more) :
    need done ≤ need more := by
  obtain ⟨rest, rfl⟩ := h
  unfold need
  rw [List.map_append, List.sum_append]
  exact Nat.le_add_right _ _

theorem Built.vmaOk (h : Built roots lost r image s₀ done l)
    (hload : ∀ p ∈ done, image.Loadable p) :
    ∀ v ∈ l.mm.mmapList, VmaOk v := by
  intro v hv
  obtain ⟨p, hp, rfl⟩ := List.mem_map.mp (h.list.mem_iff.mp hv)
  exact area_ok (hload p hp)

/-- The range of the next segment is vacant. -/
theorem Built.vacant (h : Built roots lost r image s₀ done l)
    (hload : ∀ p ∈ done, image.Loadable p) (hph : image.Loadable ph)
    (hapart : ∀ p ∈ done, p.Apart ph) : Vacant l.mm ph.area := by
  refine ⟨(area_ok hph).2.2, ?_⟩
  intro v hv
  obtain ⟨p, hp, rfl⟩ := List.mem_map.mp (h.list.mem_iff.mp hv)
  rw [area_eq (hload p hp), area_eq hph]
  exact hapart p hp

/-- What a segment leaves that could not be loaded can be taken down. -/
theorem Built.removable {l₁ l₂ : Load M}
    (h : Built roots lost r image s₀ done l)
    (hzero : ∀ x : Slot, x.1 = r → pteAt roots s₀ x = 0)
    (hload : ∀ p ∈ done, image.Loadable p) (hph : image.Loadable ph)
    (hgrows : Grows roots lost (fun _ => False) l.machine l₁.machine)
    (hperm : l₁.mm.mmapList.Perm (ph.area :: l.mm.mmapList))
    (hroot : l₁.mm.pgdir = l.mm.pgdir) (hcount : l₁.mm.mmCount = l.mm.mmCount)
    (hnull : SegmentNull roots lost r ph l₁ l₂) :
    Removable roots lost r l₂ := by
  obtain ⟨hmm, hgrows₂, -⟩ := hnull
  have hmem : ∀ v, v ∈ l₂.mm.mmapList ↔ v = ph.area ∨ v ∈ l.mm.mmapList := by
    intro v
    rw [hmm, hperm.mem_iff, List.mem_cons]
  have hboth := (hgrows.weaken fun _ hx => hx.elim).trans hgrows₂
  apply Removable.of_grows _ _ _ hzero
  · apply (h.grows.weaken _).trans (hboth.weaken _)
    · intro x hx
      obtain ⟨va, ⟨v, hv, hhas⟩, rfl⟩ := hx
      exact ⟨va, ⟨v, (hmem v).mpr (Or.inr hv), hhas⟩, rfl⟩
    · intro x hx
      obtain ⟨va, hva, rfl⟩ := hx
      refine ⟨va, ⟨_, (hmem _).mpr (Or.inl rfl), ?_⟩, rfl⟩
      rw [area_eq hph]
      exact hva
  · rw [hmm, hroot, h.root]
  · rw [hmm, hcount, h.count]
  · intro v hv
    rcases (hmem v).mp hv with rfl | hv
    · exact area_ok hph
    · exact h.vmaOk hload v hv

/-- The pages of a segment, counted. -/
theorem pages_length (h : image.Loadable ph) :
    pgsize * ph.pages.length = ph.pastLast - ph.first := by
  have hlen : ph.pages.length = (ph.pastLast - ph.first) / pgsize := by
    simp [Proghdr.pages, pagesFrom]
  have hmod : ph.pastLast % pgsize = 0 := (roundup_user h.fits).2.2
  have hfirst : ph.first % pgsize = 0 := rounddown_mod ph.pVa
  rw [hlen]
  unfold pgsize at *
  omega

/-- A program header: its segment is loaded, unless there are too few
pages. -/
theorem loadPh_spec (hwf : image.WellFormed) (hr : r ∈ roots)
    (hzero : ∀ x : Slot, x.1 = r → pteAt roots s₀ x = 0) {i : Nat}
    (hi : i < image.phnum)
    (h : Built roots lost r image s₀ (image.segmentsUpTo i) l) :
    ∃ ret l', loadPh K image (image.binary + image.phOff i) l = .ok (ret, l')
      ∧ (ret = .ok →
        Built roots lost r image s₀ (image.segmentsUpTo (i + 1)) l')
      ∧ (ret ≠ .ok → ret = .noMem ∧ Removable roots lost r l'
        ∧ s₀.free.card < need image.segments) := by
  unfold loadPh
  rw [pType_eq hwf hi]
  dsimp only
  have hsucc := segmentsUpTo_succ image i
  by_cases htype : image.typeOf i = elfPtLoad
  case neg =>
    rw [if_pos htype]
    rw [if_neg htype] at hsucc
    rw [hsucc]
    exact ⟨.ok, l, rfl, fun _ => h, fun hne => absurd rfl hne⟩
  rw [if_neg (not_not.mpr htype), proghdr_eq hwf hi]
  rw [if_pos htype] at hsucc
  rw [hsucc]
  -- what is known of the segment and of those before it
  have hprefix : image.segmentsUpTo i ++ [image.header i]
      <+: image.segments := by
    rw [← hsucc]
    exact segmentsUpTo_prefix image hi
  have hmem : ∀ p ∈ image.segmentsUpTo i ++ [image.header i],
      p ∈ image.segments := fun p hp => hprefix.subset hp
  have hph : image.Loadable (image.header i) := hwf.loadable _
    (hmem _ (List.mem_append_right _ (List.mem_singleton_self _)))
  have hload : ∀ p ∈ image.segmentsUpTo i, image.Loadable p :=
    fun p hp => hwf.loadable p (hmem p (List.mem_append_left _ hp))
  have hapart : ∀ p ∈ image.segmentsUpTo i, p.Apart (image.header i) := by
    have hpair := hwf.apart.sublist hprefix.sublist
    rw [List.pairwise_append] at hpair
    exact fun p hp => hpair.2.2 p hp _ (List.mem_singleton_self _)
  have hneed : need (image.segmentsUpTo i)
      + (1 + 3 * (image.header i).pages.length)
        ≤ need image.segments := by
    have hle := need_le hprefix
    unfold need at hle ⊢
    rw [List.map_append, List.sum_append] at hle
    simpa using hle
  have hcost := h.cost
  have hsizes := hph.sizes
  dsimp only
  rw [if_neg (Nat.not_lt.mpr hsizes)]
  obtain ⟨ret, l₁, hmap, hmachine, hplaced, hret⟩ :=
    mapArea_spec (K := K) h.areas (h.vacant hload hph hapart)
  have hgrows₁ : Grows roots lost (fun _ => False) l.machine l₁.machine := by
    rw [hmachine]
    exact grows_kmalloc K h.grows.inv
  have hcard₁ : l.machine.free.card ≤ l₁.machine.free.card + 1 := by
    rw [hmachine]
    exact (K.kmalloc_spec l.machine.pmm).2
  rw [hmap]
  rcases hret with ⟨rfl, hareas, hperm, hroot, hcount⟩ | ⟨rfl, hmm, hfree⟩
  · -- the area is there
    have hunmapped : ∀ va, (image.header i).first ≤ va →
        va < (image.header i).pastLast →
        leafAt roots l₁.machine (slotOf r va) = none := by
      intro va h1 h2
      rw [hgrows₁.leaf (fun hx => hx),
        h.grows.leaf (h.outside hload hph hapart ⟨h1, h2⟩), leafAt,
        hzero _ rfl, frameOf_zero]
    obtain ⟨ok, l₂, hseg, hdone, hnull⟩ :=
      loadSegment_spec (l := l₁) hr hgrows₁.inv
        (Nat.le_of_lt hwf.fits) hph (hroot.trans h.root) hunmapped
    dsimp only
    rw [hseg]
    cases ok with
    | true =>
        refine ⟨.ok, l₂, rfl, fun _ => ?_, fun hne => absurd rfl hne⟩
        exact h.segment hr hload hph hapart hgrows₁ hcard₁ hplaced hareas
          hperm hroot hcount (hdone rfl)
    | false =>
        have hless := (hnull rfl).2.2
        rw [← pages_length hph] at hless
        refine ⟨.noMem, l₂, rfl, (fun h => by cases h), fun _ => ⟨rfl, ?_, ?_⟩⟩
        · exact h.removable hzero hload hph hgrows₁ hperm hroot hcount
            (hnull rfl)
        · unfold pgsize at hless
          unfold need at hneed ⊢
          omega
  · -- no page for the area
    refine ⟨.noMem, l₁, rfl, (fun h => by cases h), fun _ => ⟨rfl, ?_, ?_⟩⟩
    · apply Removable.of_grows _ _ _ hzero
      · rw [hmm]
        exact h.grows.trans (hgrows₁.weaken fun _ hx => hx.elim)
      · rw [hmm, h.root]
      · rw [hmm, h.count]
      · rw [hmm]
        exact h.vmaOk hload
    · rw [hfree, Finset.card_empty] at hcost
      unfold need at hneed ⊢
      omega

/-- The loop over the headers loads all segments, unless there are too few
pages. -/
theorem loadPhs_spec (hwf : image.WellFormed) (hr : r ∈ roots)
    (hzero : ∀ x : Slot, x.1 = r → pteAt roots s₀ x = 0) :
    ∀ {fuel i : Nat} {l : Load M}, i ≤ image.phnum → image.phnum - i < fuel →
      Built roots lost r image s₀ (image.segmentsUpTo i) l →
      ∃ ret l', loadPhs K image (image.binary + image.phOff image.phnum) fuel
          (image.binary + image.phOff i) l = .ok (ret, l')
        ∧ (ret = .ok → Built roots lost r image s₀ image.segments l')
        ∧ (ret ≠ .ok → ret = .noMem ∧ Removable roots lost r l'
          ∧ s₀.free.card < need image.segments) := by
  intro fuel
  induction fuel with
  | zero =>
      intro i l _ hfuel _
      exact absurd hfuel (Nat.not_lt_zero _)
  | succ fuel ih =>
      intro i l hi hfuel h
      unfold loadPhs
      have hoff : ∀ j, image.phOff j = image.phoff + j * 56 := fun _ => rfl
      by_cases hlt : i < image.phnum
      case neg =>
        obtain rfl : i = image.phnum := by omega
        rw [if_neg (Nat.lt_irrefl _)]
        exact ⟨.ok, l, rfl, fun _ => h, fun hne => absurd rfl hne⟩
      rw [if_pos (by rw [hoff, hoff]; omega)]
      obtain ⟨ret, l₁, hrun, hok, hfail⟩ :=
        loadPh_spec (K := K) hwf hr hzero hlt h
      rw [hrun]
      cases ret with
      | ok =>
          dsimp only
          rw [phAddr_add hwf hlt]
          exact ih hlt (by omega) (hok rfl)
      | inval => exact absurd (hfail (fun h => by cases h)).1 (fun h => by cases h)
      | noMem =>
          exact ⟨.noMem, l₁, rfl, (fun h => by cases h),
            fun _ => hfail (fun h => by cases h)⟩
      | invalElf =>
          exact absurd (hfail (fun h => by cases h)).1 (fun h => by cases h)

end Ucore.Exec
