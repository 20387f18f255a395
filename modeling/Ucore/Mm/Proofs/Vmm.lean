/-
Facts about lists of virtual memory areas.
-/
import Ucore.Mm.Vmm
import Mathlib.Data.List.Pairwise

namespace Ucore.Mm

-- ========================================================= the areas

/-- The areas are page aligned user ranges. -/
def VmaOk (vma : Vma) : Prop :=
  vma.vmStart % pgsize = 0 ∧ vma.vmEnd % pgsize = 0
    ∧ userAccess vma.vmStart vma.vmEnd

/-- The addresses of some areas. -/
def InVmas (vmas : List Vma) (va : Nat) : Prop := ∃ vma ∈ vmas, vma.Has va

/-- Areas in list order do not overlap. -/
def Sorted (vmas : List Vma) : Prop :=
  vmas.Pairwise fun a b => a.vmEnd ≤ b.vmStart

/-- The number of pages of some areas. -/
def pages (vmas : List Vma) : Nat :=
  (vmas.map fun vma => (vma.vmEnd - vma.vmStart) / pgsize).sum

theorem vmaOk_lt {vma : Vma} (h : VmaOk vma) : vma.vmStart < vma.vmEnd :=
  h.2.2.2.1

/-- Areas hold user addresses. -/
theorem inVmas_lt {vmas : List Vma} {va : Nat}
    (hok : ∀ vma ∈ vmas, VmaOk vma) (h : InVmas vmas va) : va < usertop := by
  obtain ⟨vma, hin, -, hlt⟩ := h
  have htop := (hok vma hin).2.2.2.2
  omega

/-- Disjoint areas share no page. -/
theorem page_ne {u v : Vma} {a b : Nat} (hu : VmaOk u)
    (hle : u.vmEnd ≤ v.vmStart) (ha : u.Has a) (hb : v.Has b) :
    a / pgsize ≠ b / pgsize := by
  have hend := hu.2.1
  have h1 := ha.2
  have h2 := hb.1
  unfold pgsize at hend ⊢
  omega

/-- `insert_vma_struct` of an area below all others puts it first. -/
theorem insertVmaStruct_first {mm : MmStruct} {vma : Vma}
    (hsorted : Sorted (vma :: mm.mmapList))
    (hok : ∀ v ∈ vma :: mm.mmapList, VmaOk v) :
    insertVmaStruct mm vma = some { mm with
      mmapList := vma :: mm.mmapList, mapCount := mm.mapCount + 1 } := by
  have hlt := vmaOk_lt (hok vma List.mem_cons_self)
  have hpre : mm.mmapList.takeWhile
      (fun v => decide (v.vmStart ≤ vma.vmStart)) = [] := by
    cases hl : mm.mmapList with
    | nil => rfl
    | cons v vs =>
        rw [Sorted, hl, List.pairwise_cons] at hsorted
        have hle := hsorted.1 v List.mem_cons_self
        rw [List.takeWhile_cons_of_neg]
        simp only [decide_eq_true_eq]
        omega
  have hsuf : mm.mmapList.dropWhile
      (fun v => decide (v.vmStart ≤ vma.vmStart)) = mm.mmapList := by
    have happ := List.takeWhile_append_dropWhile
      (p := fun v : Vma => decide (v.vmStart ≤ vma.vmStart))
      (l := mm.mmapList)
    rwa [hpre, List.nil_append] at happ
  have hnext : ∀ next ∈ mm.mmapList.head?, VmaBefore vma next := by
    intro next hnext
    cases hl : mm.mmapList with
    | nil => rw [hl] at hnext; cases hnext
    | cons v vs =>
        rw [hl, List.head?_cons, Option.mem_some_iff] at hnext
        subst hnext
        rw [Sorted, hl, List.pairwise_cons] at hsorted
        refine ⟨hlt, hsorted.1 v List.mem_cons_self, vmaOk_lt (hok v ?_)⟩
        simp [hl]
  unfold insertVmaStruct
  rw [if_pos hlt]
  dsimp only
  rw [hpre, hsuf, if_pos ⟨fun prev hprev => (by cases hprev), hnext⟩]
  rfl

/-- Two areas of a list do not overlap. -/
theorem sorted_apart {vmas : List Vma} {u v : Vma} (h : Sorted vmas)
    (hu : u ∈ vmas) (hv : v ∈ vmas) (hne : u ≠ v) :
    u.vmEnd ≤ v.vmStart ∨ v.vmEnd ≤ u.vmStart := by
  induction vmas with
  | nil => cases hu
  | cons w ws ih =>
      rw [Sorted, List.pairwise_cons] at h
      rcases List.mem_cons.mp hu with rfl | hu'
      · rcases List.mem_cons.mp hv with rfl | hv'
        · exact absurd rfl hne
        · exact Or.inl (h.1 v hv')
      · rcases List.mem_cons.mp hv with rfl | hv'
        · exact Or.inr (h.1 u hu')
        · exact ih h.2 hu' hv'

-- ========================================================== find_vma

/-- The area `find_vma` settles on, before it is cached. -/
def candidate (mm : MmStruct) (va : Nat) : Option Vma :=
  match mm.mmapCache with
  | some vma =>
      if vma.Has va then some vma
      else mm.mmapList.find? fun vma => decide (vma.Has va)
  | none => mm.mmapList.find? fun vma => decide (vma.Has va)

theorem findVma_eq (mm : MmStruct) (va : Nat) : findVma mm va
    = (candidate mm va,
      { mm with mmapCache := (candidate mm va).or mm.mmapCache }) := by
  show (match candidate mm va with
    | some vma => (some vma, { mm with mmapCache := some vma })
    | none => (none, mm)) = _
  cases candidate mm va <;> rfl

/-- An area that is found has the address, and is one of the areas or the
cached one. -/
theorem candidate_some {mm : MmStruct} {va : Nat} {vma : Vma}
    (h : candidate mm va = some vma) :
    vma.Has va ∧ (vma ∈ mm.mmapList ∨ mm.mmapCache = some vma) := by
  have hlist : (mm.mmapList.find? fun vma => decide (vma.Has va)) = some vma →
      vma.Has va ∧ (vma ∈ mm.mmapList ∨ mm.mmapCache = some vma) := by
    intro hfind
    have hhas := List.find?_some hfind
    exact ⟨of_decide_eq_true hhas, .inl (List.mem_of_find?_eq_some hfind)⟩
  unfold candidate at h
  cases hc : mm.mmapCache with
  | none =>
      rw [hc] at h
      rw [hc] at hlist
      exact hlist h
  | some v =>
      rw [hc] at h hlist
      dsimp only at h
      by_cases hv : v.Has va
      · rw [if_pos hv] at h
        cases h
        exact ⟨hv, .inr rfl⟩
      · rw [if_neg hv] at h
        exact hlist h

/-- No area is found only where there is none. -/
theorem candidate_none {mm : MmStruct} {va : Nat}
    (h : candidate mm va = none) : ∀ v ∈ mm.mmapList, ¬ v.Has va := by
  have hlist : (mm.mmapList.find? fun vma => decide (vma.Has va)) = none →
      ∀ v ∈ mm.mmapList, ¬ v.Has va := by
    intro hfind v hv
    exact of_decide_eq_false (eq_false_of_ne_true
      (List.find?_eq_none.1 hfind v hv))
  unfold candidate at h
  cases hc : mm.mmapCache with
  | none =>
      rw [hc] at h
      exact hlist h
  | some v =>
      rw [hc] at h
      dsimp only at h
      by_cases hv : v.Has va
      · rw [if_pos hv] at h
        cases h
      · rw [if_neg hv] at h
        exact hlist h

/-- `find_vma` finds the area an address lies in. -/
theorem findVma_spec {mm : MmStruct} {vma : Vma} {va : Nat}
    (hsorted : Sorted mm.mmapList)
    (hcache : ∀ v ∈ mm.mmapCache, v ∈ mm.mmapList)
    (hin : vma ∈ mm.mmapList) (hva : vma.Has va) :
    findVma mm va = (some vma, { mm with mmapCache := some vma }) := by
  -- no other area has the address
  have honly : ∀ v ∈ mm.mmapList, v.Has va → v = vma := by
    intro v hv hhas
    by_contra hne
    have hapart : v.vmEnd ≤ vma.vmStart ∨ vma.vmEnd ≤ v.vmStart :=
      sorted_apart hsorted hv hin hne
    obtain ⟨h1, h2⟩ := hhas
    obtain ⟨h3, h4⟩ := hva
    omega
  have hfind : mm.mmapList.find? (fun v => decide (v.Has va)) = some vma := by
    cases hf : mm.mmapList.find? (fun v => decide (v.Has va)) with
    | none =>
        have hno := List.find?_eq_none.mp hf vma hin
        simp only [decide_eq_true_eq] at hno
        exact absurd hva hno
    | some v =>
        have hv := List.find?_some hf
        rw [decide_eq_true_eq] at hv
        rw [honly v (List.mem_of_find?_eq_some hf) hv]
  unfold findVma
  cases hc : mm.mmapCache with
  | none =>
      dsimp only
      rw [hfind]
  | some v =>
      dsimp only
      by_cases hhas : v.Has va
      · rw [if_pos hhas, honly v (hcache v hc) hhas]
      · rw [if_neg hhas, hfind]

end Ucore.Mm
