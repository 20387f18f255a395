/-
When `mm_map` rejects what it should.

`mm_map` looks for an area at the first address of the range only, and
`find_vma` finds an area there only if the area has that address. A range
that starts in a gap and runs into a later area passes this check and fails
the assertion of `check_vma_overlap` (`insertVmaStruct_overlap`). Every other
range is rejected or inserted (`mm_map_rejects_iff`).
-/
import Ucore.Mm.Proofs.VmaList
import Mathlib.Data.List.TakeWhile

namespace Ucore.Mm

variable {mm mm' : MmStruct} {vma : Vma} {room : Bool}
  {addr len vmFlags : Nat}

-- ======================================================= the purpose

/-- The area that a call of `mm_map` asks for: its addresses rounded to
pages, with the given flags. -/
def requested (addr len vmFlags : Nat) : Vma where
  vmStart := rounddown addr pgsize
  vmEnd := roundup ((addr + len) % 2 ^ 64) pgsize
  vmFlags := vmFlags

/-- The range of an area is a user range that no area of the list meets. -/
def Vacant (mm : MmStruct) (vma : Vma) : Prop :=
  userAccess vma.vmStart vma.vmEnd ∧ ∀ v ∈ mm.mmapList, v.Apart vma

/-- What a call of `mm_map` is for: a vacant range becomes an area of the
list, for any other the call fails and leaves all but the lookup cache as it
was. -/
def Rejects (room : Bool) (mm : MmStruct) (addr len vmFlags : Nat) : Prop :=
  let vma := requested addr len vmFlags
  (Vacant mm vma → room = true →
    ∃ mm', mmMap room mm addr len vmFlags = some (.ok, mm')
      ∧ mm'.mmapList.Perm (vma :: mm.mmapList)
      ∧ mm' = { mm with
        mmapList := mm'.mmapList, mapCount := mm.mapCount + 1 }
      ∧ AreaList mm')
  ∧ (¬ Vacant mm vma →
    ∃ cache, mmMap room mm addr len vmFlags
      = some (.inval, { mm with mmapCache := cache }))

/-- The range starts in a gap and runs into a later area. -/
def RunsInto (mm : MmStruct) (vma : Vma) : Prop :=
  userAccess vma.vmStart vma.vmEnd
    ∧ (∀ v ∈ mm.mmapList, ¬ v.Has vma.vmStart)
    ∧ ∃ v ∈ mm.mmapList, vma.vmStart < v.vmStart ∧ v.vmStart < vma.vmEnd

-- ======================================================== the checks

/-- A range whose first address is in no area meets an area only where it
runs into one. -/
theorem vacant_or_runsInto (h : AreaList mm)
    (huser : userAccess vma.vmStart vma.vmEnd)
    (hgap : ∀ v ∈ mm.mmapList, ¬ v.Has vma.vmStart) :
    Vacant mm vma ∨ RunsInto mm vma := by
  by_cases hinto : ∃ v ∈ mm.mmapList,
      vma.vmStart < v.vmStart ∧ v.vmStart < vma.vmEnd
  · exact .inr ⟨huser, hgap, hinto⟩
  · refine .inl ⟨huser, ?_⟩
    intro v hv
    have hno : ¬ (v.vmStart ≤ vma.vmStart ∧ vma.vmStart < v.vmEnd) :=
      hgap v hv
    have hlate : ¬ (vma.vmStart < v.vmStart ∧ v.vmStart < vma.vmEnd) :=
      fun hlate => hinto ⟨v, hv, hlate⟩
    have hnonempty := h.nonempty v hv
    unfold Vma.Apart
    omega

/-- A range that runs into an area is not vacant. -/
theorem RunsInto.not_vacant (h : AreaList mm) (hinto : RunsInto mm vma) :
    ¬ Vacant mm vma := by
  intro hvacant
  obtain ⟨-, -, v, hv, hstart, hend⟩ := hinto
  have hnonempty := h.nonempty v hv
  have hapart : v.vmEnd ≤ vma.vmStart ∨ vma.vmEnd ≤ v.vmStart :=
    hvacant.2 v hv
  omega

/-- `insert_vma_struct` of a range that runs into an area fails an
assertion. -/
theorem insertVmaStruct_overlap (h : AreaList mm)
    (hinto : RunsInto mm vma) : insertVmaStruct mm vma = none := by
  obtain ⟨⟨-, hlt, -⟩, -, v, hv, hstart, hend⟩ := hinto
  -- the area after the new one starts at or below `v`
  have hsplit := List.takeWhile_append_dropWhile
    (p := fun v : Vma => decide (v.vmStart ≤ vma.vmStart)) (l := mm.mmapList)
  have hv' : v ∈ mm.mmapList.dropWhile
      fun v => decide (v.vmStart ≤ vma.vmStart) := by
    rw [← hsplit] at hv
    rcases List.mem_append.1 hv with hv | hv
    · have hle := List.mem_takeWhile_imp hv
      rw [decide_eq_true_eq] at hle
      omega
    · exact hv
  have hsorted : Sorted (mm.mmapList.dropWhile
      fun v => decide (v.vmStart ≤ vma.vmStart)) :=
    List.Pairwise.sublist (List.dropWhile_suffix _).sublist h.sorted
  unfold insertVmaStruct
  rw [if_pos hlt]
  dsimp only
  apply if_neg
  intro hchecks
  cases hs : mm.mmapList.dropWhile
      (fun v => decide (v.vmStart ≤ vma.vmStart)) with
  | nil =>
      rw [hs] at hv'
      cases hv'
  | cons u rest =>
      have hbefore : VmaBefore vma u :=
        hchecks.2 u (by rw [hs]; rfl)
      have huv : u.vmStart ≤ v.vmStart := by
        rw [hs] at hv' hsorted
        rcases List.mem_cons.1 hv' with heq | hrest
        · rw [heq]
        · have hle := (List.pairwise_cons.1 hsorted).1 v hrest
          have hu := hbefore.2.2
          have hin : u ∈ mm.mmapList :=
            (List.dropWhile_suffix _).subset (hs ▸ List.mem_cons_self)
          have hnonempty := h.nonempty u hin
          omega
      have hend' := hbefore.2.1
      omega

-- ========================================================== the call

/-- `mm_map` of a range that is not a user range. -/
theorem mmMap_noAccess
    (huser : ¬ userAccess (requested addr len vmFlags).vmStart
      (requested addr len vmFlags).vmEnd) :
    mmMap room mm addr len vmFlags = some (.inval, mm) :=
  if_neg huser

/-- The call from `find_vma` on. -/
theorem mmMap_user {found : Option Vma}
    (huser : userAccess (requested addr len vmFlags).vmStart
      (requested addr len vmFlags).vmEnd)
    (hfind : findVma mm (requested addr len vmFlags).vmStart
      = (found, mm')) :
    mmMap room mm addr len vmFlags
      = if ∃ v ∈ found, v.vmStart < (requested addr len vmFlags).vmEnd then
          some (.inval, mm')
        else if room then
          (insertVmaStruct mm' (requested addr len vmFlags)).map
            fun mm => (.ok, mm)
        else some (.noMem, mm') := by
  have huser' : userAccess (rounddown addr pgsize)
      (roundup ((addr + len) % 2 ^ 64) pgsize) := huser
  have hfind' : findVma mm (rounddown addr pgsize) = (found, mm') := hfind
  unfold mmMap
  dsimp only
  rw [if_pos huser', hfind']
  dsimp only
  by_cases hmeet : ∃ v ∈ found, v.vmStart < (requested addr len vmFlags).vmEnd
  · rw [if_pos hmeet]
    exact if_pos hmeet
  · rw [if_neg hmeet]
    apply (if_neg hmeet).trans
    cases room with
    | false => rfl
    | true =>
        have hcreate : vmaCreate true (rounddown addr pgsize)
            (roundup ((addr + len) % 2 ^ 64) pgsize) vmFlags
            = some (requested addr len vmFlags) := rfl
        rw [hcreate]
        dsimp only
        cases insertVmaStruct mm' (requested addr len vmFlags) <;> rfl

/-- `mm_map` of a range whose first address is in an area. -/
theorem mmMap_found (h : AreaList mm)
    (huser : userAccess (requested addr len vmFlags).vmStart
      (requested addr len vmFlags).vmEnd)
    (hvma : vma ∈ mm.mmapList)
    (hhas : vma.Has (requested addr len vmFlags).vmStart) :
    mmMap room mm addr len vmFlags
      = some (.inval, { mm with mmapCache := some vma }) := by
  have hfind : findVma mm (requested addr len vmFlags).vmStart
      = (some vma, { mm with mmapCache := some vma }) :=
    findVma_spec h.sorted h.cached hvma hhas
  have hlt : vma.vmStart < (requested addr len vmFlags).vmEnd :=
    Nat.lt_of_le_of_lt hhas.1 huser.2.1
  rw [mmMap_user huser hfind, if_pos ⟨vma, rfl, hlt⟩]

/-- `mm_map` of a range whose first address is in a gap. -/
theorem mmMap_gap
    (huser : userAccess (requested addr len vmFlags).vmStart
      (requested addr len vmFlags).vmEnd)
    (hgap : ∀ v ∈ mm.mmapList,
      ¬ v.Has (requested addr len vmFlags).vmStart)
    (hcache : ∀ v ∈ mm.mmapCache, v ∈ mm.mmapList) :
    mmMap room mm addr len vmFlags
      = if room then
          (insertVmaStruct mm (requested addr len vmFlags)).map
            fun mm => (.ok, mm)
        else some (.noMem, mm) := by
  have hnone : candidate mm (requested addr len vmFlags).vmStart = none := by
    cases hc : candidate mm (requested addr len vmFlags).vmStart with
    | none => rfl
    | some v =>
        obtain ⟨hhas, hfrom⟩ := candidate_some hc
        rcases hfrom with hin | hin
        · exact absurd hhas (hgap v hin)
        · exact absurd hhas (hgap v (hcache v hin))
  have hfind : findVma mm (requested addr len vmFlags).vmStart
      = (none, mm) := by
    rw [findVma_eq, hnone]
    rfl
  rw [mmMap_user huser hfind, if_neg]
  intro hmeet
  obtain ⟨v, hv, -⟩ := hmeet
  cases hv

/-- A vacant range has its first address in a gap. -/
theorem Vacant.gap (hvacant : Vacant mm vma) :
    ∀ v ∈ mm.mmapList, ¬ v.Has vma.vmStart := by
  intro v hv hhas
  have hapart : v.vmEnd ≤ vma.vmStart ∨ vma.vmEnd ≤ v.vmStart :=
    hvacant.2 v hv
  have hlt := hvacant.1.2.1
  obtain ⟨h1, h2⟩ := hhas
  omega

/-- `mm_map` inserts a vacant range. -/
theorem mmMap_vacant (h : AreaList mm)
    (hvacant : Vacant mm (requested addr len vmFlags)) :
    ∃ mm', mmMap true mm addr len vmFlags = some (.ok, mm')
      ∧ mm'.mmapList.Perm (requested addr len vmFlags :: mm.mmapList)
      ∧ mm' = { mm with
        mmapList := mm'.mmapList, mapCount := mm.mapCount + 1 }
      ∧ AreaList mm' := by
  have hok : Insertable mm (requested addr len vmFlags) :=
    ⟨hvacant.1.2.1, hvacant.2⟩
  have hinsert := insertVmaStruct_eq h hok
  refine ⟨_, ?_, insertedList_perm, rfl, h.insert hok hinsert⟩
  rw [mmMap_gap hvacant.1 hvacant.gap h.cached, if_pos rfl, hinsert]
  rfl

/-- A call of `mm_map` on a sorted list of disjoint areas rejects the
ranges it should, and inserts the others, if and only if the range does not
start in a gap and run into a later area. -/
theorem mm_map_rejects_iff (h : AreaList mm) :
    Rejects room mm addr len vmFlags
      ↔ ¬ RunsInto mm (requested addr len vmFlags) := by
  constructor
  · intro hrejects hinto
    obtain ⟨cache, hcall⟩ := hrejects.2 (hinto.not_vacant h)
    rw [mmMap_gap hinto.1 hinto.2.1 h.cached,
      insertVmaStruct_overlap h hinto] at hcall
    cases room <;> cases hcall
  · intro hno
    refine ⟨?_, ?_⟩
    · intro hvacant hroom
      rw [hroom]
      exact mmMap_vacant h hvacant
    · intro hvacant
      by_cases huser : userAccess (requested addr len vmFlags).vmStart
          (requested addr len vmFlags).vmEnd
      case neg => exact ⟨mm.mmapCache, mmMap_noAccess huser⟩
      by_cases hgap : ∀ v ∈ mm.mmapList,
          ¬ v.Has (requested addr len vmFlags).vmStart
      · rcases vacant_or_runsInto h huser hgap with hv | hinto
        · exact absurd hv hvacant
        · exact absurd hinto hno
      · push Not at hgap
        obtain ⟨v, hv, hhas⟩ := hgap
        exact ⟨some v, mmMap_found h huser hv hhas⟩

/-- One area, of one page. -/
def oneArea : MmStruct :=
  { mmCreate 0 with
    mmapList := [⟨0x201000, 0x202000, vmRead⟩], mapCount := 1 }

theorem oneArea_areas : AreaList oneArea := by
  refine ⟨List.pairwise_singleton _ _, ?_, fun _ h => by cases h⟩
  intro v hv
  rw [List.mem_singleton.1 hv]
  decide

/-- The page above the area, and a range that wraps, both asked for. -/
theorem mm_map_rejects_iff_oneArea :
    Rejects true oneArea 0x202abc 0x10 vmWrite
      ∧ Rejects true oneArea (2 ^ 64 - 1) 0x300000 vmWrite := by
  refine ⟨(mm_map_rejects_iff oneArea_areas).2 ?_,
    (mm_map_rejects_iff oneArea_areas).2 ?_⟩
  · intro hinto
    obtain ⟨-, -, v, hv, hstart, -⟩ := hinto
    rw [List.mem_singleton.1 hv] at hstart
    revert hstart
    decide
  · intro hinto
    exact absurd hinto.1 (by decide)

/-- A range of two pages of which the second is an area: the call ends in a
failed assertion. -/
theorem oneArea_runsInto :
    ¬ Rejects true oneArea 0x200000 0x2000 vmWrite := by
  intro hrejects
  have hvacant : ¬ Vacant oneArea (requested 0x200000 0x2000 vmWrite) := by
    intro hvacant
    exact absurd (hvacant.2 _ List.mem_cons_self) (by decide)
  obtain ⟨cache, hcall⟩ := hrejects.2 hvacant
  have hpanic : mmMap true oneArea 0x200000 0x2000 vmWrite = none := by
    decide +kernel
  rw [hpanic] at hcall
  cases hcall

end Ucore.Mm
