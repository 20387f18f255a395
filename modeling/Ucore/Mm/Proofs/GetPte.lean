/-
What `get_pte` takes and touches when it creates tables: one page for each
table that is missing on the way to the entry (`missing`), and no table of
another root.
-/
import Ucore.Mm.Proofs.PageTable

namespace Ucore.Mm

variable {M : PmmManager} {roots : Finset Nat} {lost : Set Nat}
  {s s' : Machine M} {r f i la : Nat} {path : List Nat}

-- =========================================================== a level

/-- At most one page was taken, and it is the table `c` now: no other page
became a table. -/
theorem Grown.fresh_unique (hg : Grown roots lost s s') {c f' r' : Nat}
    {q q' : List Nat} (hcard : s.free.card ≤ s'.free.card + 1)
    (hc : tableAt roots s' r q = some c) (hcfree : c ∈ s.free)
    (hf : tableAt roots s' r' q' = some f') (hfree : f' ∈ s.free) :
    r' = r ∧ q' = q := by
  have hsame : f' = c := by
    by_contra hne
    have hfout : f' ∉ s'.free := hg.forest.notFree hf
    have hcout : c ∉ s'.free := hg.forest.notFree hc
    have hsub : s'.free ⊆ (s.free.erase c).erase f' := by
      intro p hp
      refine Finset.mem_erase.2 ⟨?_, Finset.mem_erase.2
        ⟨?_, hg.free_sub hp⟩⟩
      · intro hpf
        exact hfout (hpf ▸ hp)
      · intro hpc
        exact hcout (hpc ▸ hp)
    have hle := Finset.card_le_card hsub
    have he := Finset.card_erase_add_one hcfree
    have he' := Finset.card_erase_add_one
      (Finset.mem_erase.2 ⟨hne, hfree⟩)
    omega
  subst hsame
  exact hg.forest.inj hf hc

/-- A level of `get_pte` takes a page when its table is missing, and only
then; no other table is new. -/
theorem getTable_exact (h : Forest roots lost s)
    (hf : tableAt roots s r path = some f) (hlen : path.length < 2)
    (hi : i < entries path) :
    ∃ o s', getTable s (f, i) true = some (o, s')
      ∧ Grown roots lost s s'
      ∧ (∀ r' q, ¬ (r' = r ∧ q = i :: path) →
        tableAt roots s' r' q = tableAt roots s r' q)
      ∧ (o = none → s.free = ∅ ∧ tableAt roots s r (i :: path) = none)
      ∧ ∀ c, o = some c → tableAt roots s' r (i :: path) = some c
        ∧ s.free.card = s'.free.card
          + if tableAt roots s r (i :: path) = none then 1 else 0 := by
  obtain ⟨o, s', hget, hgrown, hsome, hnone, hsame, hcard⟩ :=
    getTable_create h hf hlen hi
  by_cases hkid : tableAt roots s r (i :: path) = none
  · cases o with
    | none =>
        obtain ⟨rfl, hempty, -⟩ := hnone rfl
        exact ⟨none, s', hget, hgrown, fun _ _ _ => rfl,
          fun _ => ⟨hempty, hkid⟩, fun _ h => (by cases h)⟩
    | some c =>
        have hc := hsome c rfl
        have hfresh : c ∈ s.free := by
          rcases hgrown.fresh hc with hold | hold
          · rw [hkid] at hold
            cases hold
          · exact hold
        refine ⟨some c, s', hget, hgrown, ?_, fun h => (by cases h), ?_⟩
        · intro r' q hne
          cases hq : tableAt roots s r' q with
          | some g => exact hgrown.mono hq
          | none =>
              by_contra hnew
              obtain ⟨g, hg⟩ := Option.ne_none_iff_exists'.1 hnew
              have hgfree : g ∈ s.free := by
                rcases hgrown.fresh hg with hold | hold
                · rw [hq] at hold
                  cases hold
                · exact hold
              exact hne (hgrown.fresh_unique hcard hc hfresh hg hgfree)
        · intro c' heq
          cases heq
          refine ⟨hc, ?_⟩
          rw [if_pos hkid]
          -- the new table was free before and is not any more
          have hsub : s'.free ⊆ s.free.erase c := by
            intro p hp
            refine Finset.mem_erase.2 ⟨?_, hgrown.free_sub hp⟩
            intro hpc
            exact hgrown.forest.notFree hc (hpc ▸ hp)
          have hle := Finset.card_le_card hsub
          have herase := Finset.card_erase_add_one hfresh
          omega
  · obtain rfl := hsame hkid
    refine ⟨o, s', hget, hgrown, fun _ _ _ => rfl,
      fun ho => absurd (hnone ho).2.2 hkid, ?_⟩
    intro c ho
    rw [if_neg hkid]
    exact ⟨hsome c ho, rfl⟩

-- =========================================================== get_pte

/-- How many tables are missing on the way to the entry of an address. -/
def missing (roots : Finset Nat) (s : Machine M) (r la : Nat) : Nat :=
  (if tableAt roots s r [pdx1 la] = none then 1 else 0)
    + if tableAt roots s r [pdx0 la, pdx1 la] = none then 1 else 0

/-- The tables that `get_pte` passes on the way to an entry. -/
def OnWay (r la r' : Nat) (q : List Nat) : Prop :=
  r' = r ∧ (q = [pdx1 la] ∨ q = [pdx0 la, pdx1 la])

/-- `get_pte` with `create` takes a page for each missing table, or finds
too few. No other table is new. -/
theorem getPte_exact (h : Forest roots lost s) (hr : r ∈ roots)
    (hla : pdx1 la < 511) :
    ∃ o s', getPte s r la true = some (o, s') ∧ Grown roots lost s s'
      ∧ (∀ r' q, ¬ OnWay r la r' q →
        tableAt roots s' r' q = tableAt roots s r' q)
      ∧ (o = none → s.free.card < missing roots s r la)
      ∧ ∀ ptep, o = some ptep → ∃ f, ptep = (f, ptx la)
        ∧ tableAt roots s' r [pdx0 la, pdx1 la] = some f
        ∧ s.free.card = s'.free.card + missing roots s r la := by
  have hroot := tableAt_root (s := s) hr
  obtain ⟨o₁, s₁, h₁, hg₁, hframe₁, hnull₁, hdir⟩ :=
    getTable_exact h hroot (by decide) (i := pdx1 la) hla
  unfold getPte missing
  rw [h₁]
  cases o₁ with
  | none =>
      obtain ⟨hempty, hnone⟩ := hnull₁ rfl
      refine ⟨none, s₁, rfl, hg₁, fun r' q hne =>
        hframe₁ r' q fun h => hne ⟨h.1, .inl h.2⟩, ?_,
        fun _ h => (by cases h)⟩
      intro _
      rw [if_pos hnone, hempty, Finset.card_empty]
      omega
  | some d =>
      obtain ⟨hd, hcard₁⟩ := hdir d rfl
      obtain ⟨o₂, s₂, h₂, hg₂, hframe₂, hnull₂, hpt⟩ :=
        getTable_exact hg₁.forest hd (by simp) (i := pdx0 la) (pdx0_lt la)
      -- the page table's path is not the one the first level entered
      have hkid : tableAt roots s₁ r [pdx0 la, pdx1 la]
          = tableAt roots s r [pdx0 la, pdx1 la] := by
        apply hframe₁
        intro heq
        exact absurd (congrArg List.length heq.2) (by simp)
      have hframe : ∀ r' q, ¬ OnWay r la r' q →
          tableAt roots s₂ r' q = tableAt roots s r' q := by
        intro r' q hne
        rw [hframe₂ r' q fun h => hne ⟨h.1, .inr h.2⟩,
          hframe₁ r' q fun h => hne ⟨h.1, .inl h.2⟩]
      dsimp only
      rw [h₂]
      cases o₂ with
      | none =>
          obtain ⟨hempty, hnone⟩ := hnull₂ rfl
          refine ⟨none, s₂, rfl, hg₁.trans hg₂, hframe, ?_,
            fun _ h => (by cases h)⟩
          intro _
          rw [hempty, Finset.card_empty] at hcard₁
          rw [hkid] at hnone
          rw [if_pos hnone]
          omega
      | some f =>
          obtain ⟨hf, hcard₂⟩ := hpt f rfl
          rw [hkid] at hcard₂
          refine ⟨some (f, ptx la), s₂, rfl, hg₁.trans hg₂, hframe,
            fun h => (by cases h), ?_⟩
          intro ptep heq
          cases heq
          exact ⟨f, rfl, hf, by omega⟩

/-- A level of `get_pte` writes the table it looks into and a page that
was free. -/
theorem getTable_mem {ptr : Nat × Nat} {create : Bool} {o : Option Nat}
    {g : Nat} (h : getTable s ptr create = some (o, s')) (hne : g ≠ ptr.1)
    (hfree : g ∉ s.free) : s'.mem g = s.mem g := by
  unfold getTable at h
  by_cases hv : hasFlag (s.word ptr) pteV
  · rw [if_pos hv] at h
    cases hk : kaddr (pteAddr (s.word ptr)) with
    | none =>
        rw [hk] at h
        cases h
    | some table =>
        rw [hk] at h
        cases h
        rfl
  · rw [if_neg hv] at h
    by_cases hc : (!create) = true
    · rw [if_pos hc] at h
      cases h
      rfl
    · rw [if_neg hc] at h
      cases halloc : allocPage s with
      | none =>
          rw [halloc] at h
          cases h
          rfl
      | some a =>
          obtain ⟨page, s₁⟩ := a
          obtain ⟨hin, -, hmem, -, -⟩ := allocPage_spec halloc
          have hpage : g ≠ page := fun heq => hfree (heq ▸ hin)
          rw [halloc] at h
          dsimp only at h
          by_cases hp : npage ≤ page
          · rw [if_pos hp] at h
            cases h
          · rw [if_neg hp] at h
            -- the word at `ptr` and the fresh page are all that is written
            have hkeep : ∀ w, ((clearPage (setPageRef s₁ page 1)
                page).setWord ptr w).mem g = s.mem g := by
              intro w
              funext j
              rw [setWord_mem, if_neg fun heq => hne heq.1]
              show Function.update s₁.mem page _ g j = s.mem g j
              rw [Function.update_of_ne hpage, hmem]
            cases hk : kaddr (pteAddr (((clearPage (setPageRef s₁ page 1)
                page).setWord ptr (pteCreate page (pteU ||| pteV))).word
                ptr)) with
            | none =>
                rw [hk] at h
                cases h
            | some table =>
                rw [hk] at h
                cases h
                exact hkeep _

/-- `get_pte` writes tables of its root only. -/
theorem getPte_mem {o : Option (Nat × Nat)} {g : Nat}
    (h : Forest roots lost s) (hr : r ∈ roots) (hla : pdx1 la < 511)
    (hrun : getPte s r la true = some (o, s')) (hfree : g ∉ s.free)
    (hne : ∀ q, tableAt roots s r q ≠ some g) : s'.mem g = s.mem g := by
  have hroot := tableAt_root (s := s) hr
  obtain ⟨o₁, s₁, h₁, hg₁, -, -, hdir⟩ :=
    getTable_exact h hroot (by decide) (i := pdx1 la) hla
  have hgr : g ≠ r := by
    intro heq
    exact hne [] (heq ▸ hroot)
  have hmem₁ := getTable_mem h₁ hgr hfree
  unfold getPte at hrun
  rw [h₁] at hrun
  cases o₁ with
  | none =>
      cases hrun
      exact hmem₁
  | some d =>
      have hd := (hdir d rfl).1
      have hgd : g ≠ d := by
        intro heq
        subst heq
        rcases hg₁.fresh hd with hold | hold
        · exact hne _ hold
        · exact hfree hold
      have hfree₁ : g ∉ s₁.free := fun hin => hfree (hg₁.free_sub hin)
      dsimp only at hrun
      cases h₂ : getTable s₁ (d, pdx0 la) true with
      | none =>
          rw [h₂] at hrun
          cases hrun
      | some b =>
          obtain ⟨o₂, s₂⟩ := b
          have hmem₂ := getTable_mem h₂ hgd hfree₁
          rw [h₂] at hrun
          cases o₂ <;> cases hrun <;> exact hmem₂.trans hmem₁

/-- Without `create` nothing changes. -/
theorem getTable_false {ptr : Nat × Nat} {o : Option Nat}
    (h : getTable s ptr false = some (o, s')) : s' = s := by
  unfold getTable at h
  by_cases hv : hasFlag (s.word ptr) pteV
  · rw [if_pos hv] at h
    cases hk : kaddr (pteAddr (s.word ptr)) with
    | none =>
        rw [hk] at h
        cases h
    | some table =>
        rw [hk] at h
        cases h
        rfl
  · rw [if_neg hv] at h
    cases h
    rfl

theorem getPte_false {o : Option (Nat × Nat)}
    (h : getPte s r la false = some (o, s')) : s' = s := by
  unfold getPte at h
  cases h₁ : getTable s (r, pdx1 la) false with
  | none =>
      rw [h₁] at h
      cases h
  | some a =>
      obtain ⟨o₁, s₁⟩ := a
      obtain rfl := getTable_false h₁
      rw [h₁] at h
      cases o₁ with
      | none =>
          cases h
          rfl
      | some d =>
          dsimp only at h
          cases h₂ : getTable s₁ (d, pdx0 la) false with
          | none =>
              rw [h₂] at h
              cases h
          | some b =>
              obtain ⟨o₂, s₂⟩ := b
              obtain rfl := getTable_false h₂
              rw [h₂] at h
              cases o₂ <;> cases h <;> rfl

end Ucore.Mm
