/-
The areas of an `mm_struct` over its whole history.

An area is inserted behind the areas that do not start after it. In a
sorted list of disjoint areas those are the ones below it (`split_at`), so
what `check_vma_overlap` asserts holds and the list stays sorted. The cache
only ever holds an area of the list, so a lookup that hits it finds what the
scan would (`findVma_iff`).
-/
import Ucore.Lib.Run
import Ucore.Mm.Proofs.Vmm

namespace Ucore.Mm

variable {mm mm' : MmStruct} {vma : Vma} {va : Nat}

-- ========================================================= the calls

/-- A call on an `mm_struct`. -/
inductive VmaOp where
  | insert (vma : Vma)
  | find (addr : Nat)

/-- Two ranges share no address. -/
def Vma.Apart (u v : Vma) : Prop :=
  u.vmEnd ≤ v.vmStart ∨ v.vmEnd ≤ u.vmStart

instance (u v : Vma) : Decidable (u.Apart v) :=
  inferInstanceAs (Decidable (_ ∨ _))

/-- Callers insert ranges that are not empty and disjoint from those
inserted before. -/
def Insertable (mm : MmStruct) (vma : Vma) : Prop :=
  vma.vmStart < vma.vmEnd ∧ ∀ v ∈ mm.mmapList, v.Apart vma

/-- `insert_vma_struct` and `find_vma`. -/
inductive VmaStep : MmStruct → VmaOp → MmStruct → Prop
  | insert {mm mm' : MmStruct} {vma : Vma} (hok : Insertable mm vma)
      (hcall : insertVmaStruct mm vma = some mm') :
      VmaStep mm (.insert vma) mm'
  | find (mm : MmStruct) (addr : Nat) :
      VmaStep mm (.find addr) (findVma mm addr).2

/-- The area an operation inserts. -/
def VmaOp.inserted : VmaOp → Option Vma
  | .insert vma => some vma
  | .find _ => none

-- ===================================================== the invariant

/-- Disjoint areas in list order, with one of them or none in the cache. -/
structure AreaList (mm : MmStruct) : Prop where
  sorted : Sorted mm.mmapList
  nonempty : ∀ v ∈ mm.mmapList, v.vmStart < v.vmEnd
  cached : ∀ v ∈ mm.mmapCache, v ∈ mm.mmapList

/-- Areas like that, counted. -/
structure Areas (mm : MmStruct) : Prop extends AreaList mm where
  count : mm.mapCount = mm.mmapList.length

/-- The areas that do not start after a new one lie below it, the others
above it. -/
theorem split_at (h : AreaList mm) (hok : Insertable mm vma) :
    (∀ v ∈ mm.mmapList.takeWhile (fun v => decide (v.vmStart ≤ vma.vmStart)),
        v.vmEnd ≤ vma.vmStart)
      ∧ ∀ v ∈ mm.mmapList.dropWhile
        (fun v => decide (v.vmStart ≤ vma.vmStart)),
        vma.vmEnd ≤ v.vmStart := by
  obtain ⟨hlt, hapart⟩ := hok
  have hsorted := h.sorted
  have hnonempty := h.nonempty
  clear h
  generalize mm.mmapList = l at hapart hsorted hnonempty ⊢
  induction l with
  | nil => exact ⟨(fun _ h => by cases h), fun _ h => by cases h⟩
  | cons u rest ih =>
      obtain ⟨hu, hrest⟩ := List.pairwise_cons.1 hsorted
      have hin : u ∈ u :: rest := List.mem_cons_self
      have htail : ∀ {v}, v ∈ rest → v ∈ u :: rest :=
        fun hv => List.mem_cons_of_mem u hv
      have hu0 := hnonempty u hin
      have hua := hapart u hin
      unfold Vma.Apart at hua
      by_cases hle : u.vmStart ≤ vma.vmStart
      · obtain ⟨hpre, hsuf⟩ := ih (fun v hv => hapart v (htail hv)) hrest
          (fun v hv => hnonempty v (htail hv))
        rw [List.takeWhile_cons_of_pos (by simpa using hle),
          List.dropWhile_cons_of_pos (by simpa using hle)]
        refine ⟨?_, hsuf⟩
        intro v hv
        rcases List.mem_cons.1 hv with rfl | hv
        · omega
        · exact hpre v hv
      · rw [List.takeWhile_cons_of_neg (by simpa using hle),
          List.dropWhile_cons_of_neg (by simpa using hle)]
        refine ⟨(fun _ h => by cases h), ?_⟩
        intro v hv
        rcases List.mem_cons.1 hv with rfl | hv
        · omega
        · have huv := hu v hv
          omega

/-- The list after an insertion. -/
def insertedList (mm : MmStruct) (vma : Vma) : List Vma :=
  mm.mmapList.takeWhile (fun v => decide (v.vmStart ≤ vma.vmStart))
    ++ vma :: mm.mmapList.dropWhile
      fun v => decide (v.vmStart ≤ vma.vmStart)

/-- `insert_vma_struct` of a range like that returns. -/
theorem insertVmaStruct_eq (h : AreaList mm) (hok : Insertable mm vma) :
    insertVmaStruct mm vma = some { mm with
      mmapList := insertedList mm vma, mapCount := mm.mapCount + 1 } := by
  obtain ⟨hpre, hsuf⟩ := split_at h hok
  have hmem : ∀ {v}, v ∈ mm.mmapList.takeWhile
      (fun v => decide (v.vmStart ≤ vma.vmStart)) → v ∈ mm.mmapList :=
    fun hv => (List.takeWhile_prefix _).subset hv
  have hmem' : ∀ {v}, v ∈ mm.mmapList.dropWhile
      (fun v => decide (v.vmStart ≤ vma.vmStart)) → v ∈ mm.mmapList :=
    fun hv => (List.dropWhile_suffix _).subset hv
  unfold insertVmaStruct
  rw [if_pos hok.1]
  dsimp only
  rw [if_pos]
  · rfl
  refine ⟨?_, ?_⟩
  · intro prev hprev
    have hin := List.mem_of_getLast? hprev
    exact ⟨h.nonempty prev (hmem hin), hpre prev hin, hok.1⟩
  · intro next hnext
    have hin := List.mem_of_head? hnext
    exact ⟨hok.1, hsuf next hin, h.nonempty next (hmem' hin)⟩

theorem mem_insertedList {v : Vma} :
    v ∈ insertedList mm vma ↔ v = vma ∨ v ∈ mm.mmapList := by
  have hsplit := List.takeWhile_append_dropWhile
    (p := fun v : Vma => decide (v.vmStart ≤ vma.vmStart)) (l := mm.mmapList)
  constructor
  · intro hv
    rcases List.mem_append.1 hv with hv | hv
    · exact .inr ((List.takeWhile_prefix _).subset hv)
    · rcases List.mem_cons.1 hv with hv | hv
      · exact .inl hv
      · exact .inr ((List.dropWhile_suffix _).subset hv)
  · intro hv
    rcases hv with hv | hv
    · exact List.mem_append_right _ (List.mem_cons.2 (.inl hv))
    · rw [← hsplit] at hv
      rcases List.mem_append.1 hv with hv | hv
      · exact List.mem_append_left _ hv
      · exact List.mem_append_right _ (List.mem_cons_of_mem vma hv)

theorem insertedList_perm :
    (insertedList mm vma).Perm (vma :: mm.mmapList) := by
  have hsplit := List.takeWhile_append_dropWhile
    (p := fun v : Vma => decide (v.vmStart ≤ vma.vmStart)) (l := mm.mmapList)
  apply List.perm_middle.trans
  rw [hsplit]

/-- An insertion keeps the areas sorted. -/
theorem AreaList.insert (h : AreaList mm) (hok : Insertable mm vma)
    (hcall : insertVmaStruct mm vma = some mm') : AreaList mm' := by
  rw [insertVmaStruct_eq h hok] at hcall
  cases hcall
  obtain ⟨hpre, hsuf⟩ := split_at h hok
  have hsorted := h.sorted
  have hsplit := List.takeWhile_append_dropWhile
    (p := fun v : Vma => decide (v.vmStart ≤ vma.vmStart)) (l := mm.mmapList)
  unfold Sorted at hsorted
  rw [← hsplit] at hsorted
  obtain ⟨hbelow, habove, hcross⟩ := List.pairwise_append.1 hsorted
  refine ⟨?_, ?_, ?_⟩
  · apply List.pairwise_append.2
    refine ⟨hbelow, List.pairwise_cons.2 ⟨hsuf, habove⟩, ?_⟩
    intro u hu v hv
    rcases List.mem_cons.1 hv with rfl | hv
    · exact hpre u hu
    · exact hcross u hu v hv
  · intro v hv
    rcases mem_insertedList.1 hv with rfl | hv
    · exact hok.1
    · exact h.nonempty v hv
  · intro v hv
    exact mem_insertedList.2 (.inr (h.cached v hv))

/-- And counted. -/
theorem Areas.insert (h : Areas mm) (hok : Insertable mm vma)
    (hcall : insertVmaStruct mm vma = some mm') : Areas mm' := by
  refine ⟨h.toAreaList.insert hok hcall, ?_⟩
  rw [insertVmaStruct_eq h.toAreaList hok] at hcall
  cases hcall
  have hperm : (insertedList mm vma).Perm (vma :: mm.mmapList) :=
    insertedList_perm
  show mm.mapCount + 1 = (insertedList mm vma).length
  rw [hperm.length_eq, h.count, List.length_cons]

/-- A lookup changes the cache at most. -/
theorem AreaList.find (h : AreaList mm) : AreaList (findVma mm va).2 := by
  rw [findVma_eq]
  refine ⟨h.sorted, h.nonempty, ?_⟩
  intro v hv
  cases hc : candidate mm va with
  | none =>
      rw [hc] at hv
      exact h.cached v hv
  | some u =>
      rw [hc] at hv
      have huv : u = v := Option.some.inj hv
      subst huv
      rcases (candidate_some hc).2 with hin | hin
      · exact hin
      · exact h.cached u hin

theorem Areas.step {op : VmaOp} (h : Areas mm) (hstep : VmaStep mm op mm') :
    Areas mm' := by
  cases hstep with
  | insert hok hcall => exact h.insert hok hcall
  | find addr =>
      refine ⟨h.toAreaList.find, ?_⟩
      rw [findVma_eq]
      exact h.count

/-- An address lies in one area at most. -/
theorem AreaList.unique (h : AreaList mm) {u v : Vma} (hu : u ∈ mm.mmapList)
    (hv : v ∈ mm.mmapList) (hua : u.Has va) (hva : v.Has va) : u = v := by
  by_contra hne
  have hapart := sorted_apart h.sorted hu hv hne
  obtain ⟨h1, h2⟩ := hua
  obtain ⟨h3, h4⟩ := hva
  omega

/-- `find_vma` finds the area of the list that has the address. -/
theorem findVma_iff (h : AreaList mm) :
    (findVma mm va).1 = some vma ↔ vma ∈ mm.mmapList ∧ vma.Has va := by
  rw [findVma_eq]
  constructor
  · intro hfind
    obtain ⟨hhas, hfrom⟩ := candidate_some hfind
    rcases hfrom with hin | hin
    · exact ⟨hin, hhas⟩
    · exact ⟨h.cached vma hin, hhas⟩
  · intro hin
    cases hc : candidate mm va with
    | none => exact absurd hin.2 (candidate_none hc vma hin.1)
    | some u =>
        obtain ⟨hhas, hfrom⟩ := candidate_some hc
        have hu : u ∈ mm.mmapList := by
          rcases hfrom with hu | hu
          · exact hu
          · exact h.cached u hu
        exact congrArg some (h.unique hu hin.1 hhas hin.2)

-- ============================================================== runs

/-- The list of a run holds what was inserted. -/
theorem inserted_perm {ops : List VmaOp} {mm₀ : MmStruct}
    (h : Areas mm₀) (hrun : Run VmaStep mm₀ ops mm) :
    mm.mmapList.Perm (mm₀.mmapList ++ ops.filterMap VmaOp.inserted) := by
  induction hrun with
  | nil s => rw [List.filterMap_nil, List.append_nil]
  | @cons s t u op ops hstep hrest ih =>
      apply (ih (h.step hstep)).trans
      cases hstep with
      | @insert _ vma hok hcall =>
          rw [insertVmaStruct_eq h.toAreaList hok] at hcall
          cases hcall
          apply (List.Perm.append_right _ insertedList_perm).trans
          exact List.perm_middle.symm
      | find addr =>
          rw [findVma_eq]
          exact List.Perm.refl _

/-- In every state of every run the list is sorted, disjoint and counted, a
lookup finds the area that has the address, and a further range that is not
empty and disjoint from the others can be inserted. -/
theorem vma_list_sound {ops : List VmaOp} {pgdir : Nat}
    (hrun : Run VmaStep (mmCreate pgdir) ops mm) :
    mm.mmapList.Pairwise (fun u v => u.vmStart < v.vmStart)
      ∧ mm.mmapList.Pairwise Vma.Apart
      ∧ mm.mapCount = mm.mmapList.length
      ∧ mm.mmapList.Perm (ops.filterMap VmaOp.inserted)
      ∧ (∀ va vma, (findVma mm va).1 = some vma
        ↔ VmaOp.insert vma ∈ ops ∧ vma.Has va)
      ∧ ∀ vma, Insertable mm vma → (insertVmaStruct mm vma).isSome := by
  have hfirst : Areas (mmCreate pgdir) :=
    ⟨⟨List.Pairwise.nil, (fun _ h => by cases h), fun _ h => by cases h⟩, rfl⟩
  have h : Areas mm :=
    hrun.invariant (I := Areas) (fun h hstep => h.step hstep) hfirst
  have hperm := inserted_perm hfirst hrun
  have hsorted := h.sorted
  refine ⟨?_, ?_, h.count, hperm, ?_, ?_⟩
  · apply hsorted.imp_of_mem
    intro u v hu _ hle
    exact Nat.lt_of_lt_of_le (h.nonempty u hu) hle
  · apply hsorted.imp
    intro u v hle
    exact .inl hle
  · intro va vma
    rw [findVma_iff h.toAreaList, hperm.mem_iff]
    have hmem : vma ∈ (mmCreate pgdir).mmapList
        ++ ops.filterMap VmaOp.inserted ↔ VmaOp.insert vma ∈ ops := by
      show vma ∈ ops.filterMap VmaOp.inserted ↔ _
      rw [List.mem_filterMap]
      constructor
      · intro hin
        obtain ⟨op, hop, heq⟩ := hin
        cases op with
        | insert u =>
            cases heq
            exact hop
        | find addr => cases heq
      · intro hin
        exact ⟨_, hin, rfl⟩
    rw [hmem]
  · intro vma hok
    rw [insertVmaStruct_eq h.toAreaList hok]
    rfl

/-- Two areas, the higher inserted first, with a lookup between. -/
theorem vma_list_sound_two : ∃ mm, Run VmaStep (mmCreate 0)
    [.insert ⟨0x5000, 0x7000, vmRead⟩, .find 0x6000,
      .insert ⟨0x1000, 0x5000, vmRead⟩] mm
    ∧ (findVma mm 0x4fff).1 = some ⟨0x1000, 0x5000, vmRead⟩ := by
  have hrun : Run VmaStep (mmCreate 0)
      [.insert ⟨0x5000, 0x7000, vmRead⟩, .find 0x6000,
        .insert ⟨0x1000, 0x5000, vmRead⟩]
      ⟨[⟨0x1000, 0x5000, vmRead⟩, ⟨0x5000, 0x7000, vmRead⟩],
        some ⟨0x5000, 0x7000, vmRead⟩, 0, 2, 0⟩ := by
    refine .cons (.insert ⟨by decide, fun _ h => by cases h⟩ rfl)
      (.cons (.find _ _) (.single (.insert ⟨by decide, ?_⟩ rfl)))
    intro v hv
    rw [List.mem_singleton.1 hv]
    decide
  refine ⟨_, hrun, ?_⟩
  apply ((vma_list_sound hrun).2.2.2.2.1 _ _).2
  exact ⟨by simp, by decide⟩

end Ucore.Mm
