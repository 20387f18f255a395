/-
The page tables of a machine as a forest.

A table is named by its root and the path of entry indices that leads to
it, the latest index first: the root itself is `[]`, the table below entry
`d1` of the root is `[d1]`, the page table below entry `d0` of that is
`[d0, d1]`. `tableAt` follows a path in memory. In a `Forest` no two paths
lead to one frame and no table is free, nor is a frame of `lost`, the
tables that were dropped without being freed. So a store to one entry is seen
through one path only; every fact about `get_pte` and about stores to
page table entries below rests on that.

The last entry of a root maps the kernel and is no path: it is copied from
`boot_pgdir` and names no table.
-/
import Ucore.Mm.Pmm
import Mathlib.Data.Finset.Card

namespace Ucore.Mm

variable {M : PmmManager} {roots : Finset Nat} {lost : Set Nat} {s s' : Machine M}

-- ============================================== tables by their path

/-- How many entries of the table at a path lead to further tables. -/
def entries : List Nat → Nat
  | [] => 511
  | _ :: _ => 512

/-- The frame of the table at a path below a root. -/
def tableAt (roots : Finset Nat) (s : Machine M) (r : Nat) :
    List Nat → Option Nat
  | [] => if r ∈ roots then some r else none
  | i :: path =>
      if path.length < 2 ∧ i < entries path then
        (tableAt roots s r path).bind fun f => frameOf (s.mem f i)
      else none

/-- Some path leads to the frame, or it was a table that no path leads to
any more and that was never given back. -/
def IsTable (roots : Finset Nat) (lost : Set Nat) (s : Machine M) (f : Nat) : Prop :=
  f ∈ lost ∨ ∃ r path, tableAt roots s r path = some f

/-- The place of a page table entry: root, directory indices, index. -/
abbrev Slot := Nat × Nat × Nat × Nat

/-- The slot of an address below a root. -/
def slotOf (r la : Nat) : Slot := (r, pdx1 la, pdx0 la, ptx la)

/-- Slots of user addresses in different pages differ. -/
theorem slotOf_ne {r a b : Nat} (ha : a < usertop) (hb : b < usertop)
    (hne : a / pgsize ≠ b / pgsize) : slotOf r a ≠ slotOf r b := by
  intro heq
  simp only [slotOf, Prod.mk.injEq, true_and] at heq
  have hlt : usertop < 2 ^ 39 := by decide
  exact hne (page_of_indices (by omega) (by omega) heq.1 heq.2.1 heq.2.2)

theorem slotOf_eq {r a b : Nat} (h : a / pgsize = b / pgsize) :
    slotOf r a = slotOf r b := by
  obtain ⟨h1, h0, ht⟩ := indices_of_page h
  rw [slotOf, slotOf, h1, h0, ht]

/-- The page table entry in a slot, 0 where there is no page table. -/
def pteAt (roots : Finset Nat) (s : Machine M) (x : Slot) : Nat :=
  match tableAt roots s x.1 [x.2.2.1, x.2.1] with
  | some f => s.mem f x.2.2.2
  | none => 0

/-- The frame a slot maps. -/
def leafAt (roots : Finset Nat) (s : Machine M) (x : Slot) : Option Nat :=
  frameOf (pteAt roots s x)

/-- Page frames the allocator may manage. -/
def Managed (f : Nat) : Prop := nbase ≤ f ∧ f < npage

/-- An allocated page that is no table. -/
def UserPage (roots : Finset Nat) (lost : Set Nat) (s : Machine M) (p : Nat) : Prop :=
  Managed p ∧ p ∉ s.free ∧ ¬ IsTable roots lost s p

/-- No two paths share a frame, and tables are allocated pages. -/
structure Forest (roots : Finset Nat) (lost : Set Nat) (s : Machine M) : Prop where
  inj : ∀ {r path r' path' f}, tableAt roots s r path = some f →
    tableAt roots s r' path' = some f → r = r' ∧ path = path'
  managed : ∀ {r path f}, tableAt roots s r path = some f → Managed f
  notFree : ∀ {r path f}, tableAt roots s r path = some f → f ∉ s.free
  freeManaged : ∀ {f}, f ∈ s.free → Managed f
  lostNotFree : ∀ {f}, f ∈ lost → f ∉ s.free
  lostNotTable : ∀ {r path f}, f ∈ lost → tableAt roots s r path ≠ some f

theorem Managed.lt {f : Nat} (h : Managed f) : f < 2 ^ 52 := by
  have := h.2
  unfold npage at this
  omega

theorem Managed.kaddr_eq {f pte : Nat} (h : Managed f)
    (hpte : frameOf pte = some f) : kaddr (pteAddr pte) = some f := by
  unfold frameOf at hpte
  split at hpte
  case isTrue =>
      cases hpte
      exact if_neg (Nat.not_le.mpr h.2)
  case isFalse => cases hpte

theorem Managed.pte2page_eq {f pte : Nat} (h : Managed f)
    (hpte : frameOf pte = some f) : pte2page pte = some f := by
  unfold frameOf at hpte
  split at hpte
  case isTrue hv =>
      cases hpte
      rw [pte2page, if_pos hv, pa2page, if_neg]
      intro hor
      rcases hor with hor | hor
      · exact Nat.not_le.mpr h.2 hor
      · exact Nat.not_lt.mpr h.1 hor
  case isFalse => cases hpte

theorem Managed.pde2page_eq {f pde : Nat} (h : Managed f)
    (hpde : frameOf pde = some f) : pde2page pde = some f := by
  have hv : hasFlag pde pteV := by
    by_contra hno
    rw [frameOf_eq_none_iff.mpr hno] at hpde
    cases hpde
  have hpage := h.pte2page_eq hpde
  rwa [pte2page, if_pos hv] at hpage

-- ======================================== what the forest depends on

/-- Tables at a path are found through the directories only. -/
theorem tableAt_congr
    (h : ∀ r path f, tableAt roots s r path = some f → path.length < 2 →
      s'.mem f = s.mem f) (r : Nat) (path : List Nat) :
    tableAt roots s' r path = tableAt roots s r path := by
  induction path with
  | nil => rfl
  | cons i path ih =>
      simp only [tableAt, ih]
      split
      case isTrue hp =>
          cases ht : tableAt roots s r path with
          | none => rfl
          | some f =>
              simp only [Option.bind_some]
              rw [h r path f ht hp.1]
      case isFalse => rfl

/-- Only memory matters to where tables are. -/
theorem tableAt_of_mem (h : s'.mem = s.mem) (r : Nat) (path : List Nat) :
    tableAt roots s' r path = tableAt roots s r path :=
  tableAt_congr (fun _ _ f _ _ => by rw [h]) r path

theorem pteAt_congr
    (h : ∀ r path f, tableAt roots s r path = some f → s'.mem f = s.mem f)
    (x : Slot) : pteAt roots s' x = pteAt roots s x := by
  have htable : ∀ r path, tableAt roots s' r path = tableAt roots s r path :=
    tableAt_congr fun r path f hf _ => h r path f hf
  unfold pteAt
  rw [htable]
  cases ht : tableAt roots s x.1 [x.2.2.1, x.2.1] with
  | none => rfl
  | some f => simp only [h _ _ f ht]

/-- A forest stays one when its directories keep their contents and no
table becomes free. -/
theorem Forest.congr (h : Forest roots lost s)
    (hmem : ∀ r path, tableAt roots s' r path = tableAt roots s r path)
    (hfree : ∀ f, f ∈ s'.free → f ∈ s.free ∨ UserPage roots lost s f) :
    Forest roots lost s' := by
  refine ⟨?_, ?_, ?_, ?_, ?_, ?_⟩
  · intro r path r' path' f hf hf'
    rw [hmem] at hf hf'
    exact h.inj hf hf'
  · intro r path f hf
    rw [hmem] at hf
    exact h.managed hf
  · intro r path f hf hin
    rw [hmem] at hf
    rcases hfree f hin with hin | huser
    · exact h.notFree hf hin
    · exact huser.2.2 (Or.inr ⟨r, path, hf⟩)
  · intro f hin
    rcases hfree f hin with hin | huser
    · exact h.freeManaged hin
    · exact huser.1
  · intro f hlost hin
    rcases hfree f hin with hin | huser
    · exact h.lostNotFree hlost hin
    · exact huser.2.2 (Or.inl hlost)
  · intro r path f hlost
    rw [hmem]
    exact h.lostNotTable hlost

-- ============================================= stores to page tables

section Store

variable {r d1 d0 t f w : Nat}

/-- A store to a page table entry leaves every table where it is. -/
theorem tableAt_setWord (h : Forest roots lost s)
    (hf : tableAt roots s r [d0, d1] = some f) (r' : Nat)
    (path : List Nat) : tableAt roots (s.setWord (f, t) w) r' path
      = tableAt roots s r' path := by
  apply tableAt_congr
  intro r₁ path₁ f₁ hf₁ hlen
  have hne : f₁ ≠ f := by
    rintro rfl
    have := (h.inj hf hf₁).2
    subst this
    simp at hlen
  funext i
  rw [setWord_mem, if_neg]
  intro heq
  exact hne heq.1

/-- A store to a page table entry is seen in its own slot only. -/
theorem pteAt_setWord (h : Forest roots lost s)
    (hf : tableAt roots s r [d0, d1] = some f) (x : Slot) :
    pteAt roots (s.setWord (f, t) w) x
      = if x = (r, d1, d0, t) then w else pteAt roots s x := by
  obtain ⟨r', d1', d0', t'⟩ := x
  unfold pteAt
  dsimp only
  rw [tableAt_setWord h hf]
  cases ht : tableAt roots s r' [d0', d1'] with
  | none =>
      rw [if_neg]
      intro heq
      cases heq
      rw [hf] at ht
      cases ht
  | some f' =>
      simp only [setWord_mem]
      by_cases hx : (r', d1', d0', t') = (r, d1, d0, t)
      · cases hx
        rw [hf] at ht
        cases ht
        simp
      · rw [if_neg hx, if_neg]
        rintro ⟨rfl, rfl⟩
        have heq := h.inj hf ht
        apply hx
        simp only [List.cons.injEq, and_true] at heq
        obtain ⟨rfl, rfl, rfl⟩ := heq
        rfl

theorem Forest.setWord (h : Forest roots lost s)
    (hf : tableAt roots s r [d0, d1] = some f) :
    Forest roots lost (s.setWord (f, t) w) :=
  h.congr (tableAt_setWord h hf) fun _ hin => Or.inl hin

theorem isTable_setWord (h : Forest roots lost s)
    (hf : tableAt roots s r [d0, d1] = some f) (p : Nat) :
    IsTable roots lost (s.setWord (f, t) w) p ↔ IsTable roots lost s p := by
  unfold IsTable
  simp only [tableAt_setWord h hf]

end Store

-- ==================================================== growing tables

/-- `s'` has the tables of `s` and perhaps more, taken from the free pages
and empty; everything that is no table is as in `s`. -/
structure Grown (roots : Finset Nat) (lost : Set Nat) (s s' : Machine M) : Prop where
  forest : Forest roots lost s'
  mono : ∀ {r path f}, tableAt roots s r path = some f →
    tableAt roots s' r path = some f
  fresh : ∀ {r path f}, tableAt roots s' r path = some f →
    tableAt roots s r path = some f ∨ f ∈ s.free
  pte_eq : ∀ x, pteAt roots s' x = pteAt roots s x
  free_sub : s'.free ⊆ s.free
  free_split : ∀ {f}, f ∈ s.free → f ∈ s'.free ∨ IsTable roots lost s' f
  ref_eq : ∀ {p}, ¬ IsTable roots lost s' p → s'.ref p = s.ref p
  mem_eq : ∀ {p}, ¬ IsTable roots lost s' p → s'.mem p = s.mem p
  freed_eq : s'.freed = s.freed

theorem Grown.refl (h : Forest roots lost s) : Grown roots lost s s where
  forest := h
  mono := id
  fresh := Or.inl
  pte_eq _ := rfl
  free_sub := Finset.Subset.refl _
  free_split := Or.inl
  ref_eq _ := rfl
  mem_eq _ := rfl
  freed_eq := rfl

theorem Grown.isTable (g : Grown roots lost s s') {f : Nat}
    (hf : IsTable roots lost s f) : IsTable roots lost s' f := by
  rcases hf with hlost | ⟨r, path, hf⟩
  · exact Or.inl hlost
  · exact Or.inr ⟨r, path, g.mono hf⟩

/-- A user page stays one. -/
theorem Grown.userPage (g : Grown roots lost s s') {f : Nat}
    (hf : UserPage roots lost s f) : UserPage roots lost s' f := by
  obtain ⟨hm, hfree, htable⟩ := hf
  refine ⟨hm, fun hin => hfree (g.free_sub hin), ?_⟩
  rintro (hlost | ⟨r, path, hf'⟩)
  · exact htable (Or.inl hlost)
  · rcases g.fresh hf' with h | h
    · exact htable (Or.inr ⟨r, path, h⟩)
    · exact hfree h

theorem Grown.trans {s₁ s₂ s₃ : Machine M} (g : Grown roots lost s₁ s₂)
    (g' : Grown roots lost s₂ s₃) : Grown roots lost s₁ s₃ where
  forest := g'.forest
  mono hf := g'.mono (g.mono hf)
  fresh hf := by
    rcases g'.fresh hf with h | h
    · exact g.fresh h
    · exact Or.inr (g.free_sub h)
  pte_eq x := (g'.pte_eq x).trans (g.pte_eq x)
  free_sub := g'.free_sub.trans g.free_sub
  free_split hf := by
    rcases g.free_split hf with h | h
    · exact g'.free_split h
    · exact Or.inr (g'.isTable h)
  ref_eq hp := by
    rw [g'.ref_eq hp, g.ref_eq fun h => hp (g'.isTable h)]
  mem_eq hp := by
    rw [g'.mem_eq hp, g.mem_eq fun h => hp (g'.isTable h)]
  freed_eq := g'.freed_eq.trans g.freed_eq

/-- From `s` to `s'` no slot outside `X` changes its entry, and what is no
table keeps its contents. -/
structure Edits (roots : Finset Nat) (lost : Set Nat) (X : Slot → Prop) (s s' : Machine M) :
    Prop where
  mono : ∀ {r path f}, tableAt roots s r path = some f →
    tableAt roots s' r path = some f
  pte_eq : ∀ {x}, ¬ X x → pteAt roots s' x = pteAt roots s x
  mem_eq : ∀ {p}, ¬ IsTable roots lost s' p → s'.mem p = s.mem p

theorem Edits.refl (X : Slot → Prop) (s : Machine M) : Edits roots lost X s s :=
  ⟨id, fun _ => rfl, fun _ => rfl⟩

theorem Edits.isTable {X : Slot → Prop} (e : Edits roots lost X s s') {f : Nat}
    (hf : IsTable roots lost s f) : IsTable roots lost s' f := by
  rcases hf with hlost | ⟨r, path, hf⟩
  · exact Or.inl hlost
  · exact Or.inr ⟨r, path, e.mono hf⟩

theorem Edits.trans {X : Slot → Prop} {s₁ s₂ s₃ : Machine M}
    (e : Edits roots lost X s₁ s₂) (e' : Edits roots lost X s₂ s₃) :
    Edits roots lost X s₁ s₃ where
  mono hf := e'.mono (e.mono hf)
  pte_eq hx := (e'.pte_eq hx).trans (e.pte_eq hx)
  mem_eq hp := by
    rw [e'.mem_eq hp, e.mem_eq fun h => hp (e'.isTable h)]

theorem Edits.weaken {X Y : Slot → Prop} (e : Edits roots lost X s s')
    (h : ∀ x, X x → Y x) : Edits roots lost Y s s' :=
  ⟨e.mono, fun hx => e.pte_eq fun hX => hx (h _ hX), e.mem_eq⟩

theorem Grown.edits (g : Grown roots lost s s') (X : Slot → Prop) :
    Edits roots lost X s s' :=
  ⟨g.mono, fun _ => g.pte_eq _, g.mem_eq⟩

/-- A store to a page table entry edits its slot. -/
theorem Edits.setWord {r d1 d0 t f w : Nat} (h : Forest roots lost s)
    (hf : tableAt roots s r [d0, d1] = some f) :
    Edits roots lost (· = (r, d1, d0, t)) s (s.setWord (f, t) w) where
  mono hf' := by rwa [tableAt_setWord h hf]
  pte_eq hx := by rw [pteAt_setWord h hf, if_neg hx]
  mem_eq hp := by
    rw [isTable_setWord h hf] at hp
    funext i
    rw [setWord_mem, if_neg]
    rintro ⟨rfl, _⟩
    exact hp (Or.inr ⟨r, _, hf⟩)

/-- Reference counts and the allocator are not part of the view. -/
theorem Edits.of_mem {X : Slot → Prop} (e : Edits roots lost X s s')
    {s'' : Machine M} (hmem : s''.mem = s'.mem) : Edits roots lost X s s'' where
  mono hf := by rw [tableAt_of_mem hmem]; exact e.mono hf
  pte_eq hx := by
    rw [pteAt_congr (s := s') fun _ _ f _ => by rw [hmem]]
    exact e.pte_eq hx
  mem_eq hp := by
    rw [hmem]
    apply e.mem_eq
    rintro (hlost | ⟨r, path, hf⟩)
    · exact hp (Or.inl hlost)
    · rw [← tableAt_of_mem hmem] at hf
      exact hp (Or.inr ⟨r, path, hf⟩)

-- =========================================================== get_pte

section GetTable

variable {r f i : Nat} {path : List Nat}

theorem tableAt_cons (hf : tableAt roots s r path = some f)
    (hlen : path.length < 2) (hi : i < entries path) :
    tableAt roots s r (i :: path) = frameOf (s.mem f i) := by
  simp only [tableAt, hf, Option.bind_some]
  rw [if_pos ⟨hlen, hi⟩]

theorem tableAt_cons_none (hf : tableAt roots s r path = none) :
    tableAt roots s r (i :: path) = none := by
  simp [tableAt, hf]

/-- Without `create` a level of `get_pte` only looks. -/
theorem getTable_look (h : Forest roots lost s)
    (hf : tableAt roots s r path = some f) (hlen : path.length < 2)
    (hi : i < entries path) :
    getTable s (f, i) false
      = some (tableAt roots s r (i :: path), s) := by
  have hkid := tableAt_cons hf hlen hi
  unfold getTable Machine.word
  cases hentry : frameOf (s.mem f i) with
  | none =>
      rw [hkid, hentry, if_neg (frameOf_eq_none_iff.mp hentry)]
      rfl
  | some c =>
      rw [hentry] at hkid
      have hv : hasFlag (s.mem f i) pteV := by
        by_contra hnot
        rw [frameOf_eq_none_iff.mpr hnot] at hentry
        cases hentry
      rw [hkid, if_pos hv, (h.managed hkid).kaddr_eq hentry]

/-- The machine after a level of `get_pte` has entered the fresh table
`page` at `(f, i)`. -/
def enterTable (s : Machine M) (f i page : Nat) : Machine M :=
  (clearPage (setPageRef s page 1) page).setWord (f, i)
    (pteCreate page (pteU ||| pteV))

theorem frameOf_entered {page : Nat} (hp : Managed page) :
    frameOf (pteCreate page (pteU ||| pteV)) = some page :=
  frameOf_pteCreate hp.lt (by decide)

theorem enterTable_mem {page g : Nat} (hne : f ≠ page) :
    (enterTable s f i page).mem g
      = if g = page then fun _ => 0
        else if g = f then
          Function.update (s.mem f) i (pteCreate page (pteU ||| pteV))
        else s.mem g := by
  funext j
  rw [enterTable, setWord_mem]
  simp only [clearPage, setPageRef_mem, Function.update_apply]
  by_cases hgp : g = page
  · simp [hgp, Ne.symm hne]
  · by_cases hgf : g = f
    · subst hgf
      simp [hgp, Function.update_apply]
    · simp [hgp, hgf]

/-- Entering a fresh table gives one path more. -/
theorem tableAt_enterTable (h : Forest roots lost s) {page : Nat}
    (hfree : page ∈ s.free) (hf : tableAt roots s r path = some f)
    (hlen : path.length < 2) (hi : i < entries path)
    (hnone : frameOf (s.mem f i) = none) (r' : Nat) (path' : List Nat) :
    tableAt roots (enterTable s f i page) r' path'
      = if r' = r ∧ path' = i :: path then some page
        else tableAt roots s r' path' := by
  have hne : f ≠ page := by
    rintro rfl
    exact h.notFree hf hfree
  have hkid := tableAt_cons hf hlen hi
  rw [hnone] at hkid
  induction path' with
  | nil => simp [tableAt]
  | cons j q ih =>
      by_cases hnew : r' = r ∧ q = i :: path
      · -- below the fresh table, which is empty, as nothing was there before
        obtain ⟨rfl, rfl⟩ := hnew
        rw [if_pos ⟨rfl, rfl⟩] at ih
        have hlong : ¬ (r' = r' ∧ j :: i :: path = i :: path) := by
          simp
        rw [if_neg hlong]
        simp only [tableAt] at ih hkid ⊢
        rw [ih, hkid]
        simp only [Option.bind_some, Option.bind_none, ite_self]
        split
        · rw [enterTable_mem hne, if_pos rfl, frameOf_zero]
        · rfl
      · rw [if_neg hnew] at ih
        simp only [tableAt, ih]
        cases hq : tableAt roots s r' q with
        | none =>
            simp only [Option.bind_none, ite_self]
            rw [if_neg]
            rintro ⟨rfl, hpath⟩
            simp only [List.cons.injEq] at hpath
            obtain ⟨rfl, rfl⟩ := hpath
            rw [hf] at hq
            cases hq
        | some g =>
            have hgp : g ≠ page := by
              rintro rfl
              exact h.notFree hq hfree
            simp only [Option.bind_some, List.cons.injEq]
            rw [enterTable_mem hne, if_neg hgp]
            by_cases hgf : g = f
            · subst hgf
              obtain ⟨rfl, rfl⟩ := h.inj hf hq
              rw [if_pos rfl, Function.update_apply]
              by_cases hj : j = i
              · subst hj
                rw [if_pos rfl, if_pos ⟨hlen, hi⟩, if_pos ⟨rfl, rfl, rfl⟩]
                exact frameOf_entered (h.freeManaged hfree)
              · have hother : ¬ (r = r ∧ j = i ∧ path = path) :=
                  fun heq => hj heq.2.1
                rw [if_neg hj, if_neg hother]
            · have hother : ¬ (r' = r ∧ j = i ∧ q = path) := by
                rintro ⟨rfl, -, rfl⟩
                rw [hf] at hq
                cases hq
                exact hgf rfl
              rw [if_neg hgf, if_neg hother]

/-- Entering a page that was just allocated grows the tables by one. -/
theorem Grown.enter (h : Forest roots lost s) {page : Nat} {s₁ : Machine M}
    (halloc : allocPage s = some (page, s₁))
    (hf : tableAt roots s r path = some f) (hlen : path.length < 2)
    (hi : i < entries path) (hnone : frameOf (s.mem f i) = none) :
    Grown roots lost s (enterTable s₁ f i page)
      ∧ tableAt roots (enterTable s₁ f i page) r (i :: path) = some page := by
  obtain ⟨hin, hfree, hmem, href, hfreed⟩ := allocPage_spec halloc
  have hne : f ≠ page := by
    rintro rfl
    exact h.notFree hf hin
  have hmem₁ : (enterTable s₁ f i page).mem = (enterTable s f i page).mem := by
    simp only [enterTable, clearPage, Machine.setWord, setPageRef_mem, hmem]
  have hfree₁ : (enterTable s₁ f i page).free = s.free.erase page := hfree
  have htable : ∀ r' path', tableAt roots (enterTable s₁ f i page) r' path'
      = if r' = r ∧ path' = i :: path then some page
        else tableAt roots s r' path' := by
    intro r' path'
    rw [tableAt_of_mem hmem₁]
    exact tableAt_enterTable h hin hf hlen hi hnone r' path'
  have hnew : tableAt roots (enterTable s₁ f i page) r (i :: path)
      = some page := by
    rw [htable, if_pos ⟨rfl, rfl⟩]
  have hkid := tableAt_cons hf hlen hi
  rw [hnone] at hkid
  have hmono : ∀ {r' path' f'}, tableAt roots s r' path' = some f' →
      tableAt roots (enterTable s₁ f i page) r' path' = some f' := by
    intro r' path' f' hf'
    rw [htable, if_neg]
    · exact hf'
    · rintro ⟨rfl, rfl⟩
      rw [hkid] at hf'
      cases hf'
  have hfresh : ∀ {r' path' f'},
      tableAt roots (enterTable s₁ f i page) r' path' = some f' →
      tableAt roots s r' path' = some f'
        ∨ r' = r ∧ path' = i :: path ∧ f' = page := by
    intro r' path' f' hf'
    rw [htable] at hf'
    split at hf'
    case isTrue heq =>
        cases hf'
        exact Or.inr ⟨heq.1, heq.2, rfl⟩
    case isFalse => exact Or.inl hf'
  have hout : ∀ {p}, ¬ IsTable roots lost (enterTable s₁ f i page) p →
      p ≠ page ∧ p ≠ f := by
    intro p hp
    refine ⟨?_, ?_⟩
    · rintro rfl
      exact hp (Or.inr ⟨r, i :: path, hnew⟩)
    · rintro rfl
      exact hp (Or.inr ⟨r, path, hmono hf⟩)
  refine ⟨⟨⟨?_, ?_, ?_, ?_, ?_, ?_⟩, hmono, ?_, ?_, ?_, ?_, ?_, ?_, hfreed⟩, hnew⟩
  · intro r' path' r'' path'' f' hf' hf''
    rcases hfresh hf' with h' | ⟨rfl, rfl, rfl⟩
    · rcases hfresh hf'' with h'' | ⟨rfl, rfl, rfl⟩
      · exact h.inj h' h''
      · exact absurd hin (h.notFree h')
    · rcases hfresh hf'' with h'' | ⟨rfl, rfl, _⟩
      · exact absurd hin (h.notFree h'')
      · exact ⟨rfl, rfl⟩
  · intro r' path' f' hf'
    rcases hfresh hf' with h' | ⟨_, _, rfl⟩
    · exact h.managed h'
    · exact h.freeManaged hin
  · intro r' path' f' hf'
    rw [hfree₁]
    rcases hfresh hf' with h' | ⟨_, _, rfl⟩
    · exact fun hmem' => h.notFree h' (Finset.mem_of_mem_erase hmem')
    · exact Finset.notMem_erase _ _
  · intro f' hf'
    rw [hfree₁] at hf'
    exact h.freeManaged (Finset.mem_of_mem_erase hf')
  · intro f' hlost hf'
    rw [hfree₁] at hf'
    exact h.lostNotFree hlost (Finset.mem_of_mem_erase hf')
  · intro r' path' f' hlost hf'
    rcases hfresh hf' with h' | ⟨_, _, rfl⟩
    · exact h.lostNotTable hlost h'
    · exact h.lostNotFree hlost hin
  · intro r' path' f' hf'
    rcases hfresh hf' with h' | ⟨_, _, rfl⟩
    · exact Or.inl h'
    · exact Or.inr hin
  · -- a slot below the fresh table reads 0, as it did without a table
    intro x
    unfold pteAt
    rw [htable]
    split
    case h_1 f' hf' =>
        split at hf'
        case isTrue heq =>
            cases hf'
            rw [heq.1, heq.2, hkid, hmem₁, enterTable_mem hne, if_pos rfl]
        case isFalse =>
            have hkeep : (enterTable s₁ f i page).mem f' = s.mem f' := by
              rw [hmem₁, enterTable_mem hne, if_neg, if_neg]
              · rintro rfl
                have := (h.inj hf hf').2
                subst this
                simp at hlen
              · rintro rfl
                exact h.notFree hf' hin
            rw [hf', hkeep]
    case h_2 hf' =>
        split at hf'
        case isTrue => cases hf'
        case isFalse => rw [hf']
  · rw [hfree₁]
    exact Finset.erase_subset _ _
  · intro f' hf'
    by_cases hpage : f' = page
    · subst hpage
      exact Or.inr (Or.inr ⟨r, i :: path, hnew⟩)
    · rw [hfree₁]
      exact Or.inl (Finset.mem_erase.mpr ⟨hpage, hf'⟩)
  · intro p hp
    have hpp := (hout hp).1
    show (setPageRef s₁ page 1).ref p = s.ref p
    rw [setPageRef_ref, if_neg hpp, href]
  · intro p hp
    obtain ⟨hpp, hpf⟩ := hout hp
    rw [hmem₁, enterTable_mem hne, if_neg hpp, if_neg hpf]

/-- With `create` a level of `get_pte` leads to the table at the longer
path, allocating it when there is none; `NULL` comes back only when there
is none and no page to make one from. -/
theorem getTable_create (h : Forest roots lost s)
    (hf : tableAt roots s r path = some f) (hlen : path.length < 2)
    (hi : i < entries path) :
    ∃ o s', getTable s (f, i) true = some (o, s') ∧ Grown roots lost s s'
      ∧ (∀ c, o = some c → tableAt roots s' r (i :: path) = some c)
      ∧ (o = none → s' = s ∧ s.free = ∅ ∧ tableAt roots s r (i :: path) = none)
      ∧ (tableAt roots s r (i :: path) ≠ none → s' = s)
      ∧ s.free.card ≤ s'.free.card + 1 := by
  have hkid := tableAt_cons hf hlen hi
  unfold getTable Machine.word
  cases hentry : frameOf (s.mem f i) with
  | some c =>
      rw [hentry] at hkid
      have hv : hasFlag (s.mem f i) pteV := by
        by_contra hnot
        rw [frameOf_eq_none_iff.mpr hnot] at hentry
        cases hentry
      rw [if_pos hv, (h.managed hkid).kaddr_eq hentry]
      refine ⟨some c, s, rfl, Grown.refl h, ?_, fun h => (by cases h),
        fun _ => rfl, Nat.le_succ _⟩
      intro c' heq
      cases heq
      exact hkid
  | none =>
      rw [hentry] at hkid
      rw [if_neg (frameOf_eq_none_iff.mp hentry), if_neg (by simp)]
      cases halloc : allocPage s with
      | none =>
          exact ⟨none, s, rfl, Grown.refl h, fun c h => (by cases h),
            fun _ => ⟨rfl, allocPage_none halloc, hkid⟩, fun _ => rfl,
            Nat.le_succ _⟩
      | some a =>
          obtain ⟨page, s₁⟩ := a
          obtain ⟨hin, hfree, -⟩ := allocPage_spec halloc
          have hp := h.freeManaged hin
          obtain ⟨hgrown, hnew⟩ := Grown.enter h halloc hf hlen hi hentry
          dsimp only
          rw [if_neg (Nat.not_le.mpr hp.2)]
          simp only [setWord_mem, and_self, if_true]
          rw [hp.kaddr_eq (frameOf_entered hp)]
          refine ⟨some page, _, rfl, hgrown, ?_, fun h => (by cases h),
            fun hne => absurd hkid hne, ?_⟩
          · intro c heq
            cases heq
            exact hnew
          · have hfree' : (enterTable s₁ f i page).free
                = s.free.erase page := hfree
            have hcard := Finset.card_erase_add_one hin
            show s.free.card ≤ (enterTable s₁ f i page).free.card + 1
            rw [hfree']
            omega

end GetTable

section GetPte

variable {r la : Nat}

theorem tableAt_root (hr : r ∈ roots) : tableAt roots s r [] = some r :=
  if_pos hr

/-- `get_pte` without `create` gives the entry's place in the page table
of the address, when there is a page table. -/
theorem getPte_look (h : Forest roots lost s) (hr : r ∈ roots)
    (hla : pdx1 la < 511) :
    getPte s r la false = some
      ((tableAt roots s r [pdx0 la, pdx1 la]).map fun f => (f, ptx la), s)
      := by
  have hroot := tableAt_root (s := s) hr
  unfold getPte
  rw [getTable_look h hroot (by decide) hla]
  cases hdir : tableAt roots s r [pdx1 la] with
  | none =>
      rw [tableAt_cons_none hdir]
      rfl
  | some d =>
      dsimp only
      rw [getTable_look h hdir (by simp) (pdx0_lt la)]
      cases tableAt roots s r [pdx0 la, pdx1 la] with
      | none => rfl
      | some f => rfl

/-- `get_pte` with `create` gives the entry's place after growing the
tables, or `NULL` after growing them less. -/
theorem getPte_create (h : Forest roots lost s) (hr : r ∈ roots)
    (hla : pdx1 la < 511) :
    ∃ o s', getPte s r la true = some (o, s') ∧ Grown roots lost s s'
      ∧ (∀ ptep, o = some ptep → ∃ f, ptep = (f, ptx la)
        ∧ tableAt roots s' r [pdx0 la, pdx1 la] = some f)
      ∧ (o = none → s'.free = ∅
        ∧ tableAt roots s r [pdx0 la, pdx1 la] = none)
      ∧ (tableAt roots s r [pdx0 la, pdx1 la] ≠ none → s' = s)
      ∧ s.free.card ≤ s'.free.card + 2 := by
  have hroot := tableAt_root (s := s) hr
  obtain ⟨o₁, s₁, h₁, hg₁, hdir, hnull₁, hsame₁, hcard₁⟩ :=
    getTable_create h hroot (by decide) (i := pdx1 la) hla
  unfold getPte
  rw [h₁]
  cases o₁ with
  | none =>
      obtain ⟨rfl, hempty, hnone⟩ := hnull₁ rfl
      exact ⟨none, s₁, rfl, hg₁, fun _ h => (by cases h),
        fun _ => ⟨hempty, tableAt_cons_none hnone⟩, fun _ => rfl, by omega⟩
  | some d =>
      obtain ⟨o₂, s₂, h₂, hg₂, hpt, hnull₂, hsame₂, hcard₂⟩ :=
        getTable_create hg₁.forest (hdir d rfl) (by simp)
          (i := pdx0 la) (pdx0_lt la)
      have hsame : tableAt roots s r [pdx0 la, pdx1 la] ≠ none →
          s₂ = s := by
        intro hne
        have hd : tableAt roots s r [pdx1 la] ≠ none :=
          fun hd => hne (tableAt_cons_none hd)
        obtain rfl := hsame₁ hd
        exact hsame₂ hne
      dsimp only
      rw [h₂]
      cases o₂ with
      | none =>
          obtain ⟨rfl, hempty, hnone⟩ := hnull₂ rfl
          refine ⟨none, s₂, rfl, hg₁.trans hg₂, fun _ h => (by cases h),
            fun _ => ⟨hempty, ?_⟩, hsame, by omega⟩
          by_contra hne
          obtain ⟨f, hf⟩ := Option.ne_none_iff_exists'.mp hne
          rw [hg₁.mono hf] at hnone
          cases hnone
      | some f =>
          refine ⟨some (f, ptx la), s₂, rfl, hg₁.trans hg₂, ?_,
            fun h => (by cases h), hsame, by omega⟩
          intro ptep heq
          cases heq
          exact ⟨f, rfl, hpt f rfl⟩

end GetPte

end Ucore.Mm
