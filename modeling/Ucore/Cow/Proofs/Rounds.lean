/-
When the loop of the copy-on-write `copy_range` ends.

A round goes on behind the page table that is missing, or behind the page
it copied. At an entry that is not valid, in a page table that is there, it
goes on where it stands (`Hole`), and does so for ever. A source that maps
all or none of what each of its page tables covers shows the loop no such
entry; any other does, as long as there are pages for the copies of the
pages before it.
-/
import Ucore.Cow.Proofs.Fault
import Ucore.Lib.Loop
import Ucore.Mm.Proofs.PageRefRun

namespace Ucore.Cow

open Mm Loop

variable {M : PmmManager} {roots : Finset Nat} {lost : Set Nat}
  {s s' : Machine M} {dst src start last : Nat} {share : Bool}

-- ============================================================ rounds

/-- The condition of the loop. -/
def goOn (last : Nat) (s : Machine M) (start : Nat) :
    Round (Machine M × Nat) (Option (Bool × Machine M)) :=
  if start ≠ 0 ∧ start < last then .again (s, start)
  else .stop (some (true, s))

/-- A round of the loop of `copy_range`; `none` is a panic. -/
def copyRound (dst src last : Nat) (share : Bool) (x : Machine M × Nat) :
    Round (Machine M × Nat) (Option (Bool × Machine M)) :=
  match getPte x.1 src x.2 false with
  | none => .stop none
  | some (none, s) => goOn last s (rounddown (x.2 + ptsize) ptsize)
  | some (some ptep, s) =>
      if hasFlag (s.word ptep) pteV then
        match getPte s dst x.2 true with
        | none => .stop none
        | some (none, s) => .stop (some (false, s))
        | some (some _, s) =>
            match copyPte s dst src (s.word ptep) x.2 share with
            | none => .stop none
            | some s => goOn last s (x.2 + pgsize)
      else goOn last s x.2

theorem next_goOn (rest : Machine M × Nat → Option (Option (Bool × Machine M))) :
    ((goOn last s start).next rest).join
      = if start ≠ 0 ∧ start < last then (rest (s, start)).join
        else some (true, s) := by
  unfold goOn
  by_cases hmore : start ≠ 0 ∧ start < last
  · rw [if_pos hmore, if_pos hmore, Round.next]
  · rw [if_neg hmore, if_neg hmore, Round.next, Option.join_some]

/-- The loop is made of these rounds. -/
theorem copyLoop_eq (fuel : Nat) (s : Machine M) (start : Nat) :
    copyLoop dst src last share fuel s start
      = (run (copyRound dst src last share) fuel (s, start)).join := by
  induction fuel generalizing s start with
  | zero => rfl
  | succ fuel ih =>
      rw [run, copyLoop, copyRound]
      cases getPte s src start false with
      | none => rfl
      | some a =>
          obtain ⟨o, s₁⟩ := a
          cases o with
          | none =>
              dsimp only
              rw [next_goOn, ih]
          | some ptep =>
              dsimp only
              by_cases hv : hasFlag (s₁.word ptep) pteV
              · rw [if_pos hv, if_pos hv]
                cases getPte s₁ dst start true with
                | none => rfl
                | some b =>
                    obtain ⟨o₂, s₂⟩ := b
                    cases o₂ with
                    | none => rfl
                    | some nptep =>
                        dsimp only
                        cases copyPte s₂ dst src (s₂.word ptep) start share with
                        | none => rfl
                        | some s₃ =>
                            dsimp only
                            rw [next_goOn, ih]
              · rw [if_neg hv, if_neg hv, next_goOn, ih]

-- ======================================================== the cursor

/-- The round starts at an entry of a page table of the source that is not
valid. -/
def Hole (src : Nat) (x : Machine M × Nat) : Prop :=
  ∃ ptep, getPte x.1 src x.2 false = some (some ptep, x.1)
    ∧ ¬ hasFlag (x.1.word ptep) pteV

/-- Where a round may start. -/
def Inside (last : Nat) (x : Machine M × Nat) : Prop :=
  x.2 ≠ 0 ∧ x.2 < last ∧ x.2 % pgsize = 0

theorem goOn_again {y : Machine M × Nat}
    (h : goOn last s start = .again y) :
    y = (s, start) ∧ start ≠ 0 ∧ start < last := by
  unfold goOn at h
  by_cases hmore : start ≠ 0 ∧ start < last
  · rw [if_pos hmore] at h
    cases h
    exact ⟨rfl, hmore⟩
  · rw [if_neg hmore] at h
    cases h

/-- At a hole the round goes on where it stands. -/
theorem copyRound_hole {x : Machine M × Nat} (hin : Inside last x)
    (h : Hole src x) : copyRound dst src last share x = .again x := by
  obtain ⟨ptep, hget, hv⟩ := h
  unfold copyRound
  rw [hget]
  dsimp only
  rw [if_neg hv, goOn, if_pos ⟨hin.1, hin.2.1⟩]

/-- Elsewhere it goes on at a later page of the range. -/
theorem copyRound_again {x y : Machine M × Nat} (hin : Inside last x)
    (h : copyRound dst src last share x = .again y) (hno : ¬ Hole src x) :
    Inside last y ∧ x.2 < y.2 := by
  have hpg : 0 < pgsize := by decide
  unfold copyRound at h
  cases hget : getPte x.1 src x.2 false with
  | none =>
      rw [hget] at h
      cases h
  | some a =>
      obtain ⟨o, s₁⟩ := a
      obtain rfl := getPte_false hget
      rw [hget] at h
      cases o with
      | none =>
          obtain ⟨rfl, hne, hlt⟩ := goOn_again h
          obtain ⟨hnext, hmod⟩ := rounddown_next hin.2.2
          refine ⟨⟨hne, hlt, hmod⟩, ?_⟩
          show x.2 < rounddown (x.2 + ptsize) ptsize
          omega
      | some ptep =>
          have hv : hasFlag (x.1.word ptep) pteV := by
            by_contra hv
            exact hno ⟨ptep, hget, hv⟩
          dsimp only at h
          rw [if_pos hv] at h
          cases hnew : getPte x.1 dst x.2 true with
          | none =>
              rw [hnew] at h
              cases h
          | some b =>
              obtain ⟨o₂, s₂⟩ := b
              rw [hnew] at h
              cases o₂ with
              | none => cases h
              | some nptep =>
                  dsimp only at h
                  cases hcopy : copyPte s₂ dst src (s₂.word ptep) x.2 share with
                  | none =>
                      rw [hcopy] at h
                      cases h
                  | some s₃ =>
                      rw [hcopy] at h
                      obtain ⟨rfl, hne, hlt⟩ := goOn_again h
                      have hmod : (x.2 + pgsize) % pgsize = 0 := by
                        rw [Nat.add_mod_right]
                        exact hin.2.2
                      refine ⟨⟨hne, hlt, hmod⟩, ?_⟩
                      show x.2 < x.2 + pgsize
                      omega

theorem Inside.again {x y : Machine M × Nat} (hin : Inside last x)
    (h : copyRound dst src last share x = .again y) : Inside last y := by
  by_cases hhole : Hole src x
  · rw [copyRound_hole hin hhole] at h
    cases h
    exact hin
  · exact (copyRound_again hin h hhole).1

theorem Inside.reaches {x y : Machine M × Nat}
    (h : Reaches (copyRound dst src last share) x y) (hin : Inside last x) :
    Inside last y :=
  h.invariant Inside.again hin

/-- The loop ends exactly when it comes to no hole. -/
theorem copyLoop_ends_iff (hin : Inside last (s, start)) :
    Ends (copyRound dst src last share) (s, start)
      ↔ ∀ x, Reaches (copyRound dst src last share) (s, start) x →
        ¬ Hole src x := by
  apply ends_iff (fun x => last - x.2)
  · intro x hreach hhole
    exact copyRound_hole (hin.reaches hreach) hhole
  · intro x y hreach hno hstep
    obtain ⟨hy, hlt⟩ := copyRound_again (hin.reaches hreach) hstep hno
    have hlast := hy.2.1
    show last - y.2 < last - x.2
    omega

-- ================================================== what rounds keep

/-- The source maps the addresses it mapped, by the page tables it had. -/
structure Kept (roots : Finset Nat) (lost : Set Nat) (src : Nat)
    (s s' : Machine M) : Prop where
  inv : RefInv roots lost noHold s'
  tables : ∀ q, tableAt roots s' src q = tableAt roots s src q
  leaves : ∀ la, leafAt roots s' (slotOf src la) = none
    ↔ leafAt roots s (slotOf src la) = none

theorem Kept.trans {s₁ s₂ s₃ : Machine M} (h : Kept roots lost src s₁ s₂)
    (h' : Kept roots lost src s₂ s₃) : Kept roots lost src s₁ s₃ where
  inv := h'.inv
  tables q := (h'.tables q).trans (h.tables q)
  leaves la := (h'.leaves la).trans (h.leaves la)

theorem Kept.of_page {f page : Nat} (hne : dst ≠ src)
    (hleaf : leafAt roots s (slotOf src start) = some f)
    (h : PageShared roots lost dst src start f page s s') :
    Kept roots lost src s s' where
  inv := h.inv
  tables := h.tables src
  leaves la := by
    by_cases hx : slotOf src la = slotOf src start
    · have hnew : leafAt roots s' (slotOf src start) ≠ none := by
        rw [leafAt, h.source]
        intro hnone
        rw [frameOf_eq_none_iff] at hnone
        exact hnone (hasFlag_pteCreate (sharedPte_type_lt _))
      have hold : leafAt roots s (slotOf src start) ≠ none := by
        rw [hleaf]
        exact fun h => by cases h
      rw [hx]
      exact iff_of_false hnew hold
    · have hout : ¬ (slotOf src la = slotOf src start
          ∨ slotOf src la = slotOf dst start) := by
        intro hor
        rcases hor with heq | heq
        · exact hx heq
        · exact hne (congrArg Prod.fst heq).symm
      rw [leafAt, leafAt, h.edits.pte_eq hout]

/-- A page is copied or shared if there are two free pages. -/
theorem copyPte_kept {f : Nat} (h : RefInv roots lost noHold s)
    (hd : dst ∈ roots) (hs : src ∈ roots) (hne : dst ≠ src)
    (hla : pdx1 start < 511)
    (hleaf : leafAt roots s (slotOf src start) = some f)
    (hdt : tableAt roots s dst [pdx0 start, pdx1 start] ≠ none)
    (share : Bool) :
    (∃ s', copyPte s dst src (pteAt roots s (slotOf src start)) start share
        = some s'
      ∧ Kept roots lost src s s' ∧ s.free.card ≤ s'.free.card + 2)
    ∨ copyPte s dst src (pteAt roots s (slotOf src start)) start share = none
      ∧ s.free.card < 2 := by
  have hf := h.mapped (slotOf_mem hs hla) hleaf
  have hpage := hf.1.pte2page_eq hleaf
  cases share with
  | true =>
      cases halloc : allocPage s with
      | none =>
          refine Or.inr ⟨by simp only [copyPte, hpage, halloc], ?_⟩
          rw [allocPage_none halloc, Finset.card_empty]
          decide
      | some a =>
          obtain ⟨page, s₁⟩ := a
          obtain ⟨s', hrun, hshared⟩ :=
            sharePage h hd hs hne hla hleaf hdt halloc
          refine Or.inl ⟨s', hrun, .of_page hne hleaf hshared, ?_⟩
          have hcard := Finset.card_erase_add_one hshared.leaked
          have hle := Finset.card_le_card hshared.free_sub
          omega
  | false =>
      cases halloc : allocPage s with
      | none =>
          refine Or.inr ⟨by simp only [copyPte, hpage, halloc], ?_⟩
          rw [allocPage_none halloc, Finset.card_empty]
          decide
      | some a =>
          obtain ⟨leaked, s₁⟩ := a
          obtain ⟨hin, hfree₁, hmem₁, -, -⟩ := allocPage_spec halloc
          obtain ⟨h₁, -, -, -⟩ := h.allocPage halloc
          have hcard₁ := Finset.card_erase_add_one hin
          have htable₁ : ∀ r q, tableAt roots s₁ r q = tableAt roots s r q :=
            tableAt_of_mem hmem₁
          have hpte₁ : ∀ x, pteAt roots s₁ x = pteAt roots s x :=
            pteAt_congr fun _ _ g _ => by rw [hmem₁]
          rw [← hfree₁] at hcard₁
          cases halloc₂ : allocPage s₁ with
          | none =>
              refine Or.inr ⟨by simp [copyPte, hpage, halloc, halloc₂], ?_⟩
              rw [allocPage_none halloc₂, Finset.card_empty] at hcard₁
              omega
          | some c =>
              obtain ⟨npage, s₂⟩ := c
              have hf₁ : UserPage roots lost s₁ f := by
                apply h₁.mapped (slotOf_mem hs hla)
                rw [leafAt, hpte₁]
                exact hleaf
              have hdt₁ : tableAt roots s₁ dst [pdx0 start, pdx1 start]
                  ≠ none := by
                rwa [htable₁]
              have hperm : pteAt roots s (slotOf src start) &&& pteUser
                  < 2 ^ 10 :=
                Nat.lt_of_le_of_lt Nat.and_le_right (by decide)
              obtain ⟨s', hrun, hinst⟩ :=
                install_copy h₁ hd hla hdt₁ hf₁ hperm halloc₂
              refine Or.inl ⟨s', ?_, ⟨hinst.inv, ?_, ?_⟩, ?_⟩
              · simp only [copyPte, hpage, halloc, halloc₂,
                  Bool.false_eq_true, if_false, hrun]
              · intro q
                rw [hinst.tables, htable₁]
              · intro la
                have hother : slotOf src la ≠ slotOf dst start :=
                  fun heq => hne (congrArg Prod.fst heq).symm
                rw [leafAt, leafAt, hinst.others _ hother, hpte₁]
              · have hcard₂ := Finset.card_erase_add_one hinst.fresh
                have hle := Finset.card_le_card hinst.free_sub
                omega

/-- A mapped page takes at most four pages: two tables of the destination
and two copies. -/
theorem copyRound_mapped (share : Bool) (last : Nat)
    {x : Machine M × Nat} {f : Nat}
    (h : RefInv roots lost noHold x.1) (hd : dst ∈ roots)
    (hs : src ∈ roots) (hne : dst ≠ src) (hla : pdx1 x.2 < 511)
    (hleaf : leafAt roots x.1 (slotOf src x.2) = some f) :
    (∃ s', copyRound dst src last share x = goOn last s' (x.2 + pgsize)
      ∧ Kept roots lost src x.1 s' ∧ x.1.free.card ≤ s'.free.card + 4)
    ∨ (∃ r, copyRound dst src last share x = .stop r)
      ∧ x.1.free.card < 4 := by
  obtain ⟨s, start⟩ := x
  dsimp only at *
  obtain ⟨pt, hpt⟩ : ∃ pt,
      tableAt roots s src [pdx0 start, pdx1 start] = some pt := by
    cases hpt : tableAt roots s src [pdx0 start, pdx1 start] with
    | some pt => exact ⟨pt, rfl⟩
    | none =>
        simp only [leafAt, pteAt, slotOf, hpt, frameOf_zero] at hleaf
        cases hleaf
  have hword : ∀ {t : Machine M},
      tableAt roots t src [pdx0 start, pdx1 start] = some pt →
      t.word (pt, ptx start) = pteAt roots t (slotOf src start) := by
    intro t ht
    simp only [pteAt, slotOf, ht]
    rfl
  have hv : hasFlag (s.word (pt, ptx start)) pteV := by
    by_contra hno
    rw [hword hpt] at hno
    rw [leafAt, frameOf_eq_none_iff.mpr hno] at hleaf
    cases hleaf
  obtain ⟨o, s₁, hget, hgrown, hframe, hnull, hptep⟩ :=
    getPte_exact h.forest hd hla
  have h₁ := h.grown hgrown
  have hmiss : missing roots s dst start ≤ 2 := by
    unfold missing
    split <;> split <;> omega
  have hkept₁ : Kept roots lost src s s₁ := by
    refine ⟨h₁, ?_, ?_⟩
    · intro q
      exact hframe src q fun hway => hne hway.1.symm
    · intro la
      rw [leafAt, leafAt, hgrown.pte_eq]
  unfold copyRound
  rw [getPte_look h.forest hs hla, hpt]
  dsimp only [Option.map_some]
  rw [if_pos hv, hget]
  cases o with
  | none =>
      have hfew := hnull rfl
      exact Or.inr ⟨⟨_, rfl⟩, by omega⟩
  | some ptep =>
      obtain ⟨g, rfl, hg, hcard₁⟩ := hptep ptep rfl
      have hleaf₁ : leafAt roots s₁ (slotOf src start) = some f := by
        rw [leafAt, hgrown.pte_eq]
        exact hleaf
      have hdt : tableAt roots s₁ dst [pdx0 start, pdx1 start] ≠ none := by
        rw [hg]
        exact fun h => by cases h
      dsimp only
      rw [hword (hgrown.mono hpt)]
      rcases copyPte_kept h₁ hd hs hne hla hleaf₁ hdt share with
        ⟨s₂, hrun₂, hkept₂, hcard₂⟩ | ⟨hfail, hfew⟩
      · rw [hrun₂]
        exact Or.inl ⟨s₂, rfl, hkept₁.trans hkept₂, by omega⟩
      · rw [hfail]
        exact Or.inr ⟨⟨_, rfl⟩, by omega⟩

/-- Where the source has no page table the round moves on. -/
theorem copyRound_skip {x : Machine M × Nat} (h : Forest roots lost x.1)
    (hs : src ∈ roots) (hla : pdx1 x.2 < 511)
    (hnone : tableAt roots x.1 src [pdx0 x.2, pdx1 x.2] = none) :
    copyRound dst src last share x
      = goOn last x.1 (rounddown (x.2 + ptsize) ptsize) := by
  unfold copyRound
  rw [getPte_look h hs hla, hnone]
  rfl

/-- A hole is an address with a page table and no page. -/
theorem hole_iff {x : Machine M × Nat} (h : Forest roots lost x.1)
    (hs : src ∈ roots) (hla : pdx1 x.2 < 511) :
    Hole src x ↔ tableAt roots x.1 src [pdx0 x.2, pdx1 x.2] ≠ none
      ∧ leafAt roots x.1 (slotOf src x.2) = none := by
  have hlook := getPte_look h hs hla
  cases hpt : tableAt roots x.1 src [pdx0 x.2, pdx1 x.2] with
  | none =>
      rw [hpt, Option.map_none] at hlook
      refine iff_of_false ?_ fun hc => hc.1 rfl
      intro hhole
      obtain ⟨ptep, hget, -⟩ := hhole
      rw [hlook] at hget
      cases hget
  | some pt =>
      rw [hpt, Option.map_some] at hlook
      have hpte : pteAt roots x.1 (slotOf src x.2)
          = x.1.word (pt, ptx x.2) := by
        simp only [pteAt, slotOf, hpt]
        rfl
      rw [leafAt, hpte, frameOf_eq_none_iff]
      constructor
      · intro hhole
        obtain ⟨ptep, hget, hv⟩ := hhole
        rw [hlook] at hget
        cases hget
        exact ⟨(fun h => by cases h), hv⟩
      · intro hc
        exact ⟨_, hlook, hc.2⟩

-- ===================================================== what it takes

/-- The source maps all or none of what each of its page tables covers. -/
def Covered (roots : Finset Nat) (s : Machine M) (src lo hi : Nat) : Prop :=
  ∀ va, lo ≤ va → va < hi →
    tableAt roots s src [pdx0 va, pdx1 va] ≠ none →
    leafAt roots s (slotOf src va) ≠ none

/-- A round that goes on keeps the source. -/
theorem Kept.again {x y : Machine M × Nat}
    (h : RefInv roots lost noHold x.1) (hd : dst ∈ roots)
    (hs : src ∈ roots) (hne : dst ≠ src) (hin : Inside last x)
    (htop : last ≤ usertop)
    (hstep : copyRound dst src last share x = .again y) :
    Kept roots lost src x.1 y.1 ∧ x.2 ≤ y.2 := by
  have hla : pdx1 x.2 < 511 := pdx1_user (by have hlt := hin.2.1; omega)
  have hrefl : Kept roots lost src x.1 x.1 :=
    ⟨h, fun _ => rfl, fun _ => Iff.rfl⟩
  by_cases hhole : Hole src x
  · rw [copyRound_hole hin hhole] at hstep
    cases hstep
    exact ⟨hrefl, Nat.le_refl _⟩
  · refine ⟨?_, (copyRound_again hin hstep hhole).2.le⟩
    cases hleaf : leafAt roots x.1 (slotOf src x.2) with
    | none =>
        have hnone : tableAt roots x.1 src [pdx0 x.2, pdx1 x.2] = none := by
          by_contra htable
          exact hhole ((hole_iff h.forest hs hla).2 ⟨htable, hleaf⟩)
        rw [copyRound_skip h.forest hs hla hnone] at hstep
        obtain ⟨rfl, -⟩ := goOn_again hstep
        exact hrefl
    | some f =>
        rcases copyRound_mapped share last h hd hs hne
            hla hleaf with ⟨s', hround, hkept, -⟩ | ⟨⟨r, hround⟩, -⟩
        · rw [hround] at hstep
          obtain ⟨rfl, -⟩ := goOn_again hstep
          exact hkept
        · rw [hround] at hstep
          cases hstep

/-- A covered range shows the loop no hole. -/
theorem ends_of_covered (h : RefInv roots lost noHold s) (hd : dst ∈ roots)
    (hs : src ∈ roots) (hne : dst ≠ src) (hin : Inside last (s, start))
    (htop : last ≤ usertop) (hcov : Covered roots s src start last) :
    Ends (copyRound dst src last share) (s, start) := by
  rw [copyLoop_ends_iff hin]
  intro x hreach hhole
  have hkept : Inside last x ∧ start ≤ x.2 ∧ Kept roots lost src s x.1 := by
    apply hreach.invariant (I := fun x => Inside last x ∧ start ≤ x.2
      ∧ Kept roots lost src s x.1)
    · intro y z hy hstep
      obtain ⟨hiny, hle, hk⟩ := hy
      obtain ⟨hk', hle'⟩ := Kept.again hk.inv hd hs hne hiny htop hstep
      exact ⟨hiny.again hstep, hle.trans hle', hk.trans hk'⟩
    · exact ⟨hin, Nat.le_refl _, h, fun _ => rfl, fun _ => Iff.rfl⟩
  obtain ⟨hinx, hle, hk⟩ := hkept
  have hla : pdx1 x.2 < 511 := pdx1_user (by have hlt := hinx.2.1; omega)
  obtain ⟨htable, hleaf⟩ := (hole_iff hk.inv.forest hs hla).1 hhole
  rw [hk.tables] at htable
  exact hcov x.2 hle hinx.2.1 htable ((hk.leaves x.2).1 hleaf)

/-- With pages for the copies the loop comes to the hole and stays
there. The induction is on the way left to it. -/
theorem not_ends_of_hole (hole : Nat) (hd : dst ∈ roots) (hs : src ∈ roots)
    (hne : dst ≠ src) (htop : last ≤ usertop) (hhole : hole < last)
    (haligned : hole % pgsize = 0) {x : Machine M × Nat}
    (h : RefInv roots lost noHold x.1) (hin : Inside last x)
    (hle : x.2 ≤ hole)
    (htable : tableAt roots x.1 src [pdx0 hole, pdx1 hole] ≠ none)
    (hleaf : leafAt roots x.1 (slotOf src hole) = none)
    (hfree : 4 * ((last - x.2) / pgsize) ≤ x.1.free.card) :
    ¬ Ends (copyRound dst src last share) x := by
  generalize hn : hole - x.2 = n
  induction n using Nat.strongRecOn generalizing x with
  | ind n ih =>
      have hla : pdx1 x.2 < 511 := pdx1_user (by omega)
      -- a round that goes on short of the hole leaves the rest of the way
      have hnext : ∀ {s' next}, copyRound dst src last share x
            = goOn last s' next → Kept roots lost src x.1 s' →
          x.2 + pgsize ≤ next → next ≤ hole → next % pgsize = 0 →
          4 * ((last - next) / pgsize) ≤ s'.free.card →
          ¬ Ends (copyRound dst src last share) x := by
        intro s' next hround hkept hlo hhi hmod hcard hends
        have hpg : 0 < pgsize := by decide
        have hagain : copyRound dst src last share x = .again (s', next) := by
          rw [hround, goOn, if_pos ⟨by omega, by omega⟩]
        have hless : hole - next < n := by omega
        refine ih (hole - next) hless hkept.inv (x := (s', next))
          ⟨?_, ?_, hmod⟩ hhi ?_ ?_ hcard rfl ?_
        · show next ≠ 0
          omega
        · show next < last
          omega
        · rw [hkept.tables]
          exact htable
        · exact (hkept.leaves hole).2 hleaf
        · exact Ends.of_reaches (.step hagain (.refl _)) hends
      by_cases hstuck : Hole src x
      · exact not_ends_of_stuck (copyRound_hole hin hstuck)
      · cases hmap : leafAt roots x.1 (slotOf src x.2) with
        | none =>
            have hnone : tableAt roots x.1 src [pdx0 x.2, pdx1 x.2]
                = none := by
              by_contra hsome
              exact hstuck ((hole_iff h.forest hs hla).2 ⟨hsome, hmap⟩)
            obtain ⟨hstep, hmod⟩ := rounddown_next hin.2.2
            apply hnext (copyRound_skip h.forest hs hla hnone)
              ⟨h, fun _ => rfl, fun _ => Iff.rfl⟩ hstep _ hmod
            · refine le_trans (Nat.mul_le_mul_left 4 ?_) hfree
              exact Nat.div_le_div_right (by omega)
            · by_contra hlt
              obtain ⟨hd1, hd0⟩ := pdx_of_lt_rounddown hle (by omega)
              rw [hd1, hd0] at htable
              exact htable hnone
        | some f =>
            have hbefore : x.2 ≠ hole := by
              intro heq
              rw [heq, hleaf] at hmap
              cases hmap
            have hmod := hin.2.2
            have hpages : (last - x.2) / pgsize
                = (last - (x.2 + pgsize)) / pgsize + 1 := by
              unfold pgsize at *
              omega
            have hone : 1 ≤ (last - x.2) / pgsize := by
              rw [hpages]
              exact Nat.le_add_left 1 _
            rcases copyRound_mapped share last h hd hs
                hne hla hmap with ⟨s', hround, hkept, hcard⟩ | ⟨-, hfew⟩
            · apply hnext hround hkept (Nat.le_refl _)
              · unfold pgsize at *
                omega
              · rw [Nat.add_mod_right]
                exact hmod
              · omega
            · omega

/-- For every machine, every page-aligned user range and either value of
`share` the loop of `copy_range` ends exactly when it comes to no page that
is missing in a page table the source has. It comes to none where the
source maps all or none of what each page table covers of the range, and
to one anywhere else as long as there are pages for the copies. -/
theorem copy_range_ends_iff (s : Machine M) (dst src start last : Nat)
    (share : Bool) (hstart : start % pgsize = 0)
    (hua : userAccess start last) :
    (Ends (copyRound dst src last share) (s, start)
      ↔ ∀ x, Reaches (copyRound dst src last share) (s, start) x →
        ¬ Hole src x)
    ∧ (¬ Ends (copyRound dst src last share) (s, start) →
      ∀ fuel, copyRange fuel s dst src start last share = none)
    ∧ ∀ (roots : Finset Nat) (lost : Set Nat), RefInv roots lost noHold s →
      dst ∈ roots → src ∈ roots → dst ≠ src →
      (Covered roots s src start last →
        Ends (copyRound dst src last share) (s, start))
      ∧ (¬ Covered roots s src start last →
        4 * ((last - start) / pgsize) ≤ s.free.card →
        ¬ Ends (copyRound dst src last share) (s, start)) := by
  obtain ⟨hlow, hlt, htop⟩ := hua
  have hin : Inside last (s, start) := by
    refine ⟨?_, hlt, hstart⟩
    show start ≠ 0
    unfold userbase at hlow
    omega
  refine ⟨copyLoop_ends_iff hin, ?_, ?_⟩
  · intro hends fuel
    unfold copyRange
    by_cases hok : start % pgsize = 0 ∧ last % pgsize = 0
        ∧ userAccess start last
    · rw [if_pos hok, copyLoop_eq]
      cases hrun : run (copyRound dst src last share) fuel (s, start) with
      | none => rfl
      | some r => exact absurd ⟨fuel, r, hrun⟩ hends
    · rw [if_neg hok]
  · intro roots lost h hd hs hne
    refine ⟨ends_of_covered h hd hs hne hin htop, ?_⟩
    intro hcov hfree
    obtain ⟨va, hva⟩ := not_forall.1 hcov
    have hgap : (start ≤ va ∧ va < last)
        ∧ tableAt roots s src [pdx0 va, pdx1 va] ≠ none
        ∧ leafAt roots s (slotOf src va) = none := by
      by_contra hno
      apply hva
      intro hlo hhi htable hleaf
      exact hno ⟨⟨hlo, hhi⟩, htable, hleaf⟩
    obtain ⟨⟨hlo, hhi⟩, htable, hleaf⟩ := hgap
    -- the hole is the page of the address
    have hpage := rounddown_page va
    obtain ⟨hd1, hd0, -⟩ := indices_of_page hpage
    have hpg : pgsize = 4096 := rfl
    refine not_ends_of_hole (rounddown va pgsize) hd hs hne htop
      ?_ ?_ h hin ?_ ?_ ?_ hfree
    · rw [rounddown]
      omega
    · rw [rounddown, hpg]
      omega
    · show start ≤ rounddown va pgsize
      rw [hpg] at hstart
      rw [rounddown, hpg]
      omega
    · rw [hd1, hd0]
      exact htable
    · rw [slotOf_eq hpage]
      exact hleaf

/-- An address space without page tables is copied in one round. -/
theorem copy_range_ends_iff_unmapped :
    Ends (copyRound 0x80308 0x80300 0x802000 true) (cleared, 0x800000) := by
  apply (copy_range_ends_iff cleared 0x80308 0x80300 0x800000 0x802000 true
    (by decide) (by decide)).1.2
  intro x hreach hhole
  cases hreach with
  | refl =>
      obtain ⟨ptep, hget, -⟩ := hhole
      have hlook : getPte cleared 0x80300 0x800000 false
          = some (none, cleared) := rfl
      rw [hlook] at hget
      cases hget
  | step hstep _ =>
      have hstop : copyRound 0x80308 0x80300 0x802000 true
          (cleared, 0x800000) = .stop (some (true, cleared)) := rfl
      rw [hstop] at hstep
      cases hstep

/-- A stack area of which only the top page is mapped: the loop stays at
its first page. -/
theorem copy_range_stack_never_ends : ∃ s₁ s, allocPage cleared
      = some (0x80301, s₁)
    ∧ pageInsert s₁ 0x80300 0x80301 0x7FFFF000 pteUser = some (true, s)
    ∧ RefInv {0x80300} ∅ noHold s
    ∧ ∀ dst share, ¬ Ends (copyRound dst 0x80300 usertop share)
      (s, 0x7FF00000) := by
  obtain ⟨s₁, halloc⟩ : ∃ s₁, allocPage cleared = some (0x80301, s₁) :=
    ⟨_, rfl⟩
  obtain ⟨h₁, huser, -, -⟩ := cleared_fresh_one.refInv.allocPage halloc
  have hla : pdx1 0x7FFFF000 < 511 := by decide
  obtain ⟨b, s, hrun, h, hedits, -, hpte, -, -⟩ :=
    pageInsert_spec h₁ (r := 0x80300) (by decide) hla huser
      (show pteUser < 2 ^ 10 by decide)
  have hshown : ((allocPage cleared).bind fun a =>
      (pageInsert a.2 0x80300 0x80301 0x7FFFF000 pteUser).map fun c =>
        (c.1, leafAt {0x80300} c.2 (slotOf 0x80300 0x7FF00000),
          (tableAt {0x80300} c.2 0x80300 [0x1FF, 1]).isSome))
      = some (true, none, true) := by
    decide +kernel
  rw [halloc, Option.bind_some, hrun, Option.map_some, Option.some.injEq]
    at hshown
  obtain ⟨hb, hleaf, htable⟩ : b = true
      ∧ leafAt {0x80300} s (slotOf 0x80300 0x7FF00000) = none
      ∧ (tableAt {0x80300} s 0x80300 [0x1FF, 1]).isSome = true := by
    simpa using hshown
  subst hb
  refine ⟨s₁, s, halloc, hrun, h, ?_⟩
  intro dst share
  apply not_ends_of_stuck
  have hin : Inside usertop (s, 0x7FF00000) := by
    show 0x7FF00000 ≠ 0 ∧ 0x7FF00000 < usertop ∧ 0x7FF00000 % pgsize = 0
    decide
  apply copyRound_hole hin
  have hla' : pdx1 0x7FF00000 < 511 := by decide
  apply (hole_iff (x := (s, 0x7FF00000)) h.forest (by decide) hla').2
  refine ⟨?_, hleaf⟩
  intro hnone
  have hpath : [pdx0 0x7FF00000, pdx1 0x7FF00000] = [0x1FF, 1] := rfl
  rw [← hpath] at htable
  rw [hnone] at htable
  cases htable

end Ucore.Cow
