/-
What `copy_range` does when it copies an address space into another one
(`Copied`): every page of the source gets a page of its own with the same
contents and user bits. It succeeds exactly when as many pages are free as
it takes (`demand`): one for each page of the source, and one for each
table that the destination has to get for it.
-/
import Ucore.Mm.Vmm
import Ucore.Mm.Proofs.AddressSpace
import Ucore.Mm.Proofs.Install
import Ucore.Mm.Proofs.PageRefRun

namespace Ucore.Mm

variable {M : PmmManager} {roots : Finset Nat} {lost : Set Nat}
  {s s' s₁ s₂ s₃ : Machine M} {dst src start last f : Nat} {N N' : Finset Nat}

-- ====================================================== page numbers

/-- The address of a page is on it. -/
theorem page_div (n : Nat) : n * pgsize / pgsize = n :=
  Nat.mul_div_cancel n (by decide)

/-- An aligned address is that of its page. -/
theorem div_page {la : Nat} (h : la % pgsize = 0) :
    la / pgsize * pgsize = la :=
  Nat.div_mul_cancel (Nat.dvd_of_mod_eq_zero h)

/-- The pages of a range of addresses. -/
def pagesOf (lo hi : Nat) : Finset Nat := Finset.Ico (lo / pgsize) (hi / pgsize)

/-- A page of a range that starts at a page lies in the range. -/
theorem pagesOf_range {lo hi n : Nat} (hlo : lo % pgsize = 0)
    (hn : n ∈ pagesOf lo hi) : lo ≤ n * pgsize ∧ n * pgsize < hi := by
  obtain ⟨h1, h2⟩ := Finset.mem_Ico.1 hn
  unfold pgsize at *
  omega

theorem pagesOf_below (lo : Nat) {hi : Nat} (hhi : hi ≤ usertop) :
    ∀ n ∈ pagesOf lo hi, n * pgsize < usertop := by
  intro n hn
  have hlt := (Finset.mem_Ico.1 hn).2
  unfold pgsize at *
  omega

theorem slotOf_page_ne {r m n : Nat} (hm : m * pgsize < usertop)
    (hn : n * pgsize < usertop) (hne : m ≠ n) :
    slotOf r (m * pgsize) ≠ slotOf r (n * pgsize) := by
  apply slotOf_ne hm hn
  rwa [page_div, page_div]

-- ================================================== the copied entry

/-- The entry of a copy: the user bits of the copied entry. -/
def copiedPte (page pte : Nat) : Nat :=
  pteCreate page (pteV ||| (pte &&& pteUser))

theorem userBits_lt (pte : Nat) : pte &&& pteUser < 2 ^ 10 :=
  Nat.lt_of_le_of_lt Nat.and_le_right (by decide)

theorem frameOf_copiedPte {page pte : Nat} (hp : Managed page) :
    frameOf (copiedPte page pte) = some page :=
  frameOf_pteCreate hp.lt (Nat.or_lt_two_pow (by decide) (userBits_lt pte))

theorem pteV_or {e : Nat} (h : e % 2 = 1) : pteV ||| e = e := by
  apply Nat.eq_of_testBit_eq
  intro k
  rw [Nat.testBit_or]
  cases k with
  | zero => simp [pteV, Nat.testBit_zero, h]
  | succ k => simp [pteV, Nat.testBit_succ]

/-- A copy has the user bits of what was copied. -/
theorem copiedPte_user {page pte : Nat} (hv : hasFlag pte pteV) :
    copiedPte page pte &&& pteUser = pte &&& pteUser := by
  have hmask : ∀ e, e &&& pteUser = e % 2 ^ 5 := fun e =>
    Nat.and_two_pow_sub_one_eq_mod e 5
  have hodd : (pte &&& pteUser) % 2 = 1 := by
    rw [hmask]
    rw [hasFlag_pteV] at hv
    omega
  have hmod := pteCreate_mod (p := page)
    (Nat.or_lt_two_pow (show pteV < 2 ^ 10 by decide) (userBits_lt pte))
  rw [pteV_or hodd, pteV_or hodd] at hmod
  have hcopy : copiedPte page pte % 2 ^ 10 = pte &&& pteUser := by
    rw [copiedPte, pteV_or hodd]
    exact hmod
  rw [hmask] at hcopy ⊢
  rw [hmask]
  omega

-- ============================================================ demand

/-- The pages of `N` that an address space maps. -/
def mappedOf (roots : Finset Nat) (s : Machine M) (r : Nat)
    (N : Finset Nat) : Finset Nat :=
  N.filter fun n => leafAt roots s (slotOf r (n * pgsize)) ≠ none

/-- The tables on the way to the entries of some pages. -/
def waysTo (N : Finset Nat) : Finset (List Nat) :=
  N.biUnion fun n =>
    {[pdx1 (n * pgsize)], [pdx0 (n * pgsize), pdx1 (n * pgsize)]}

/-- The tables that `dst` lacks on the way to some pages. -/
def lacking (roots : Finset Nat) (s : Machine M) (dst : Nat)
    (N : Finset Nat) : Finset (List Nat) :=
  (waysTo N).filter fun q => tableAt roots s dst q = none

/-- How many pages it takes to copy the pages of `N`: one for each page
that the source maps and one for each missing table of the destination. -/
def demand (roots : Finset Nat) (s : Machine M) (dst src : Nat)
    (N : Finset Nat) : Nat :=
  (mappedOf roots s src N).card
    + (lacking roots s dst (mappedOf roots s src N)).card

theorem mem_waysTo {q : List Nat} : q ∈ waysTo N ↔ ∃ n ∈ N,
    q = [pdx1 (n * pgsize)] ∨ q = [pdx0 (n * pgsize), pdx1 (n * pgsize)] := by
  simp only [waysTo, Finset.mem_biUnion, Finset.mem_insert,
    Finset.mem_singleton]

theorem demand_mono (h : N ⊆ N') :
    demand roots s dst src N ≤ demand roots s dst src N' := by
  have hmapped : mappedOf roots s src N ⊆ mappedOf roots s src N' :=
    Finset.filter_subset_filter _ h
  have hways : waysTo (mappedOf roots s src N)
      ⊆ waysTo (mappedOf roots s src N') :=
    Finset.biUnion_subset_biUnion_of_subset_left _ hmapped
  exact Nat.add_le_add (Finset.card_le_card hmapped)
    (Finset.card_le_card (Finset.filter_subset_filter _ hways))

theorem demand_of_unmapped (h : mappedOf roots s src N = ∅) :
    demand roots s dst src N = 0 := by
  unfold demand lacking waysTo
  rw [h, Finset.biUnion_empty, Finset.filter_empty]
  rfl

/-- A single page takes a page for itself and one for each table that is
missing. -/
theorem demand_single {n : Nat}
    (h : leafAt roots s (slotOf src (n * pgsize)) ≠ none) :
    demand roots s dst src {n} = 1 + missing roots s dst (n * pgsize) := by
  have hmapped : mappedOf roots s src {n} = {n} := by
    unfold mappedOf
    rw [Finset.filter_singleton, if_pos h]
  have hne : [pdx1 (n * pgsize)]
      ≠ [pdx0 (n * pgsize), pdx1 (n * pgsize)] := by
    intro heq
    exact absurd (congrArg List.length heq) (by simp)
  unfold demand lacking waysTo missing
  rw [hmapped, Finset.card_singleton, Finset.singleton_biUnion,
    Finset.filter_insert, Finset.filter_singleton]
  by_cases hdir : tableAt roots s dst [pdx1 (n * pgsize)] = none
  · rw [if_pos hdir, if_pos hdir]
    by_cases hpt : tableAt roots s dst
        [pdx0 (n * pgsize), pdx1 (n * pgsize)] = none
    · rw [if_pos hpt, if_pos hpt, Finset.card_pair hne]
    · rw [if_neg hpt, if_neg hpt, insert_empty_eq, Finset.card_singleton]
  · rw [if_neg hdir, if_neg hdir]
    by_cases hpt : tableAt roots s dst
        [pdx0 (n * pgsize), pdx1 (n * pgsize)] = none
    · rw [if_pos hpt, if_pos hpt, Finset.card_singleton]
    · rw [if_neg hpt, if_neg hpt, Finset.card_empty]

-- ============================================================ copied

/-- From `s` to `s'` the pages of `N` were copied from `src` to `dst`. -/
structure Copied (roots : Finset Nat) (lost : Set Nat) (dst src : Nat)
    (N : Finset Nat) (s s' : Machine M) : Prop where
  inv : RefInv roots lost noHold s'
  free_sub : s'.free ⊆ s.free
  mem : ∀ {g}, g ∉ s.free → (∀ q, tableAt roots s dst q ≠ some g) →
    s'.mem g = s.mem g
  mono : ∀ {q g}, tableAt roots s dst q = some g →
    tableAt roots s' dst q = some g
  fresh : ∀ {q g}, tableAt roots s' dst q = some g →
    tableAt roots s dst q = some g ∨ g ∈ s.free
  others : ∀ r ≠ dst, ∀ q, tableAt roots s' r q = tableAt roots s r q
  ref : ∀ {p}, UserPage roots lost s p → s'.ref p = s.ref p
  outside : ∀ {x}, (∀ n ∈ N, x ≠ slotOf dst (n * pgsize)) →
    pteAt roots s' x = pteAt roots s x
  copied : ∀ {n f}, n ∈ N →
    leafAt roots s (slotOf src (n * pgsize)) = some f →
    ∃ g ∈ s.free, s'.mem g = s.mem f
      ∧ pteAt roots s' (slotOf dst (n * pgsize))
        = copiedPte g (pteAt roots s (slotOf src (n * pgsize)))
  unmapped : ∀ {n}, n ∈ N →
    leafAt roots s (slotOf src (n * pgsize)) = none →
    pteAt roots s' (slotOf dst (n * pgsize))
      = pteAt roots s (slotOf dst (n * pgsize))
  once : ∀ {x y g}, x ∈ slots roots → y ∈ slots roots → g ∈ s.free →
    leafAt roots s' x = some g → leafAt roots s' y = some g → x = y
  tables : ∀ q, tableAt roots s' dst q = none ↔ tableAt roots s dst q = none
    ∧ q ∉ waysTo (mappedOf roots s src N)
  card : s.free.card = s'.free.card + demand roots s dst src N

/-- Nothing is mapped, nothing happens. -/
theorem Copied.skip (h : RefInv roots lost noHold s)
    (hnone : mappedOf roots s src N = ∅) :
    Copied roots lost dst src N s s where
  inv := h
  free_sub := Finset.Subset.refl _
  mem _ _ := rfl
  mono := id
  fresh := Or.inl
  others _ _ _ := rfl
  ref _ := rfl
  outside _ := rfl
  copied := by
    intro n f hn hleaf
    have hin : n ∈ mappedOf roots s src N := by
      apply Finset.mem_filter.2
      rw [hleaf]
      exact ⟨hn, fun h => by cases h⟩
    rw [hnone] at hin
    exact absurd hin (Finset.notMem_empty n)
  unmapped _ _ := rfl
  once hx _ hg hleaf _ := absurd hg (h.mapped hx hleaf).2.1
  tables := by
    intro q
    have hways : q ∉ waysTo (mappedOf roots s src N) := by
      rw [hnone]
      exact Finset.notMem_empty q
    exact ⟨fun hq => ⟨hq, hways⟩, fun hq => hq.1⟩
  card := by rw [demand_of_unmapped hnone, Nat.add_zero]

/-- The source's entries are not written. -/
theorem Copied.source (h : Copied roots lost dst src N s s')
    (hne : dst ≠ src) (la : Nat) :
    pteAt roots s' (slotOf src la) = pteAt roots s (slotOf src la) := by
  apply h.outside
  intro n _ heq
  exact hne (congrArg Prod.fst heq).symm

theorem Copied.mappedOf_eq (h : Copied roots lost dst src N s s')
    (hne : dst ≠ src) (N' : Finset Nat) :
    mappedOf roots s' src N' = mappedOf roots s src N' := by
  apply Finset.filter_congr
  intro n _
  rw [leafAt, h.source hne, leafAt]

/-- A user page stays one. -/
theorem Copied.userPage (h : Copied roots lost dst src N s s') {p : Nat}
    (hp : UserPage roots lost s p) : UserPage roots lost s' p := by
  refine ⟨hp.1, fun hin => hp.2.1 (h.free_sub hin), ?_⟩
  intro htable
  rcases htable with hlost | ⟨r, q, hq⟩
  · exact hp.2.2 (Or.inl hlost)
  · by_cases hr : r = dst
    · subst hr
      rcases h.fresh hq with hold | hold
      · exact hp.2.2 (Or.inr ⟨r, q, hold⟩)
      · exact hp.2.1 hold
    · rw [h.others r hr] at hq
      exact hp.2.2 (Or.inr ⟨r, q, hq⟩)

/-- A user page keeps its contents. -/
theorem Copied.mem_user (h : Copied roots lost dst src N s s') {p : Nat}
    (hp : UserPage roots lost s p) : s'.mem p = s.mem p :=
  h.mem hp.2.1 fun q hq => hp.2.2 (Or.inr ⟨dst, q, hq⟩)

/-- A slot maps what it mapped, or a page that was free. -/
theorem Copied.leaf (h : Copied roots lost dst src N s s')
    (hinv : RefInv roots lost noHold s) {x : Slot} {g : Nat}
    (hx : leafAt roots s' x = some g) :
    leafAt roots s x = some g ∨ g ∈ s.free := by
  by_cases hin : ∃ n ∈ N, x = slotOf dst (n * pgsize)
  · obtain ⟨n, hn, rfl⟩ := hin
    cases hleaf : leafAt roots s (slotOf src (n * pgsize)) with
    | none =>
        left
        rwa [leafAt, h.unmapped hn hleaf] at hx
    | some f =>
        right
        obtain ⟨g', hfree, -, hpte⟩ := h.copied hn hleaf
        rw [leafAt, hpte,
          frameOf_copiedPte (hinv.forest.freeManaged hfree)] at hx
        cases hx
        exact hfree
  · left
    rwa [leafAt, h.outside fun n hn heq => hin ⟨n, hn, heq⟩] at hx

/-- The demand of further pages is what is left of it. -/
theorem Copied.demand_union (h : Copied roots lost dst src N s s')
    (hne : dst ≠ src) (hdisj : Disjoint N N') :
    demand roots s dst src (N ∪ N')
      = demand roots s dst src N + demand roots s' dst src N' := by
  have hmapped := h.mappedOf_eq hne N'
  have hunion : mappedOf roots s src (N ∪ N')
      = mappedOf roots s src N ∪ mappedOf roots s src N' :=
    Finset.filter_union _ _ _
  have hlack : lacking roots s dst (mappedOf roots s src (N ∪ N'))
      = lacking roots s dst (mappedOf roots s src N)
        ∪ lacking roots s' dst (mappedOf roots s src N') := by
    ext q
    unfold lacking
    simp only [Finset.mem_union, Finset.mem_filter, h.tables]
    rw [hunion, waysTo, waysTo, waysTo, Finset.union_biUnion,
      Finset.mem_union]
    by_cases hq : q ∈ waysTo (mappedOf roots s src N)
    · have hq' : q ∈ (mappedOf roots s src N).biUnion _ := hq
      simp [hq']
    · have hq' : q ∉ (mappedOf roots s src N).biUnion _ := hq
      simp [hq']
  have hlackDisj : Disjoint (lacking roots s dst (mappedOf roots s src N))
      (lacking roots s' dst (mappedOf roots s src N')) := by
    apply Finset.disjoint_left.2
    intro q hq hq'
    exact ((h.tables q).1 (Finset.mem_filter.1 hq').2).2
      (Finset.mem_filter.1 hq).1
  have hpages : (mappedOf roots s src (N ∪ N')).card
      = (mappedOf roots s src N).card + (mappedOf roots s src N').card := by
    rw [hunion]
    exact Finset.card_union_of_disjoint
      (Finset.disjoint_filter_filter hdisj)
  unfold demand
  rw [hmapped, hlack, Finset.card_union_of_disjoint hlackDisj, hpages]
  omega

/-- One set of pages after another. -/
theorem Copied.trans (hd : dst ∈ roots) (hs : src ∈ roots) (hne : dst ≠ src)
    (hN : ∀ n ∈ N, n * pgsize < usertop)
    (hN' : ∀ n ∈ N', n * pgsize < usertop) (hdisj : Disjoint N N')
    (hinv : RefInv roots lost noHold s₁)
    (h : Copied roots lost dst src N s₁ s₂)
    (h' : Copied roots lost dst src N' s₂ s₃) :
    Copied roots lost dst src (N ∪ N') s₁ s₃ where
  inv := h'.inv
  free_sub := h'.free_sub.trans h.free_sub
  mem := by
    intro g hfree htable
    rw [h'.mem (fun hin => hfree (h.free_sub hin)), h.mem hfree htable]
    intro q hq
    rcases h.fresh hq with hold | hold
    · exact htable q hold
    · exact hfree hold
  mono hq := h'.mono (h.mono hq)
  fresh hq := by
    rcases h'.fresh hq with hold | hold
    · exact h.fresh hold
    · exact Or.inr (h.free_sub hold)
  others r hr q := (h'.others r hr q).trans (h.others r hr q)
  ref hp := (h'.ref (h.userPage hp)).trans (h.ref hp)
  outside := by
    intro x hx
    rw [h'.outside fun n hn => hx n (Finset.mem_union_right _ hn),
      h.outside fun n hn => hx n (Finset.mem_union_left _ hn)]
  copied := by
    intro n f hn hleaf
    rcases Finset.mem_union.1 hn with hn | hn
    · obtain ⟨g, hfree, hmem, hpte⟩ := h.copied hn hleaf
      have hout : ∀ m ∈ N', slotOf dst (n * pgsize) ≠ slotOf dst (m * pgsize) :=
        fun m hm => slotOf_page_ne (hN n hn) (hN' m hm)
          fun heq => Finset.disjoint_left.1 hdisj hn (heq ▸ hm)
      have hg : UserPage roots lost s₂ g := by
        apply h.inv.mapped (slotOf_mem hd (pdx1_user (hN n hn)))
        rw [leafAt, hpte]
        exact frameOf_copiedPte (hinv.forest.freeManaged hfree)
      refine ⟨g, hfree, ?_, ?_⟩
      · rw [h'.mem_user hg, hmem]
      · rw [h'.outside hout, hpte]
    · have hleaf₂ : leafAt roots s₂ (slotOf src (n * pgsize)) = some f := by
        rwa [leafAt, h.source hne]
      have hf := hinv.mapped (slotOf_mem hs (pdx1_user (hN' n hn))) hleaf
      obtain ⟨g, hfree, hmem, hpte⟩ := h'.copied hn hleaf₂
      refine ⟨g, h.free_sub hfree, ?_, ?_⟩
      · rw [hmem, h.mem_user hf]
      · rw [hpte, h.source hne]
  unmapped := by
    intro n hn hleaf
    rcases Finset.mem_union.1 hn with hn | hn
    · rw [h'.outside, h.unmapped hn hleaf]
      exact fun m hm => slotOf_page_ne (hN n hn) (hN' m hm)
        fun heq => Finset.disjoint_left.1 hdisj hn (heq ▸ hm)
    · rw [h'.unmapped hn, h.outside]
      · exact fun m hm => slotOf_page_ne (hN' n hn) (hN m hm)
          fun heq => Finset.disjoint_left.1 hdisj (heq ▸ hm) hn
      · rwa [leafAt, h.source hne]
  once := by
    intro x y g hx hy hfree hleafx hleafy
    by_cases hg : g ∈ s₂.free
    · exact h'.once hx hy hg hleafx hleafy
    · -- the page was taken for `N`, and its slot is not written again
      rcases h'.leaf h.inv hleafx with hx₂ | hnew
      · rcases h'.leaf h.inv hleafy with hy₂ | hnew
        · exact h.once hx hy hfree hx₂ hy₂
        · exact absurd hnew hg
      · exact absurd hnew hg
  tables := by
    intro q
    have hunion : mappedOf roots s₁ src (N ∪ N')
        = mappedOf roots s₁ src N ∪ mappedOf roots s₁ src N' :=
      Finset.filter_union _ _ _
    rw [h'.tables, h.tables, h.mappedOf_eq hne, hunion, waysTo, waysTo,
      waysTo, Finset.union_biUnion, Finset.mem_union, and_assoc, not_or]
  card := by
    rw [h.demand_union hne hdisj, h.card, h'.card]
    omega

-- ========================================================== one page

/-- How copying the pages of `N` ends: all are copied, or fewer pages are
free than it takes. -/
def CopyOutcome (roots : Finset Nat) (lost : Set Nat) (dst src : Nat)
    (N : Finset Nat) (s : Machine M) (r : Option (Bool × Machine M)) :
    Prop :=
  (∃ s', r = some (true, s') ∧ Copied roots lost dst src N s s')
    ∨ (∀ s', r ≠ some (true, s'))
      ∧ s.free.card < demand roots s dst src N

/-- Mapping a copy adds no mapping of a page that was in use. -/
theorem Installed.refs {la page perm : Nat} (h : RefInv roots lost noHold s)
    (hd : dst ∈ roots) (hla : pdx1 la < 511) (hperm : perm < 2 ^ 10)
    (hempty : leafAt roots s (slotOf dst la) = none)
    (hi : Installed roots lost dst la f perm page s s') {p : Nat}
    (hp : UserPage roots lost s p) : s'.ref p = s.ref p := by
  have hpage : page ≠ p := fun heq => hp.2.1 (heq ▸ hi.fresh)
  have hleaf : leafAt roots s' (slotOf dst la) = some page := by
    rw [leafAt, hi.pte]
    exact frameOf_pteCreate (h.forest.freeManaged hi.fresh).lt
      (Nat.or_lt_two_pow (by decide) hperm)
  have hchange := Occurs.change (a := p) (f := leafAt roots s)
    (g := leafAt roots s') (slotOf_mem hd hla)
    fun y _ hy => by rw [leafAt, leafAt, hi.others y hy]
  rw [hempty, hleaf, if_neg (fun h => by cases h),
    if_neg fun heq => hpage (Option.some.inj heq)]
    at hchange
  have htable : ¬ IsTable roots lost s' p := by
    intro ht
    apply hp.2.2
    rcases ht with hlost | ⟨r, q, hq⟩
    · exact Or.inl hlost
    · rw [hi.tables] at hq
      exact Or.inr ⟨r, q, hq⟩
  rw [hi.inv.ref_eq htable, h.ref_eq hp.2.2, mapCount, mapCount]
  congr 2

/-- A page is copied once `get_pte` has found or made the tables for it. -/
theorem Copied.page {n page : Nat} (hd : dst ∈ roots)
    (hn : n * pgsize < usertop) (h : RefInv roots lost noHold s)
    (hleaf : leafAt roots s (slotOf src (n * pgsize)) = some f)
    (hempty : leafAt roots s (slotOf dst (n * pgsize)) = none)
    (hf : UserPage roots lost s f)
    (hgrown : Grown roots lost s s₁)
    (hframe : ∀ r q, ¬ OnWay dst (n * pgsize) r q →
      tableAt roots s₁ r q = tableAt roots s r q)
    (hpt : tableAt roots s₁ dst [pdx0 (n * pgsize), pdx1 (n * pgsize)]
      ≠ none)
    (hmem : ∀ {g}, g ∉ s.free → (∀ q, tableAt roots s dst q ≠ some g) →
      s₁.mem g = s.mem g)
    (hcard : s.free.card
      = s₁.free.card + missing roots s dst (n * pgsize))
    (hi : Installed roots lost dst (n * pgsize) f
      (pteAt roots s (slotOf src (n * pgsize)) &&& pteUser) page s₁ s') :
    Copied roots lost dst src {n} s s' := by
  have hla : pdx1 (n * pgsize) < 511 := pdx1_user hn
  have h₁ := h.grown hgrown
  have hempty₁ : leafAt roots s₁ (slotOf dst (n * pgsize)) = none := by
    rwa [leafAt, hgrown.pte_eq]
  have hfree := hi.free hempty₁
  have hpage : page ∈ s.free := hgrown.free_sub hi.fresh
  have hmapped : mappedOf roots s src {n} = {n} := by
    unfold mappedOf
    rw [Finset.filter_singleton, if_pos]
    rw [hleaf]
    exact fun h => by cases h
  have hothers : ∀ {x}, x ≠ slotOf dst (n * pgsize) →
      pteAt roots s' x = pteAt roots s x := by
    intro x hx
    rw [hi.others x hx, hgrown.pte_eq]
  refine ⟨hi.inv, ?_, ?_, ?_, ?_, ?_, ?_, ?_, ?_, ?_, ?_, ?_, ?_⟩
  · rw [hfree]
    exact (Finset.erase_subset _ _).trans hgrown.free_sub
  · intro g hg htable
    rw [hi.mem g (fun heq => hg (heq ▸ hpage)), hmem hg htable]
    intro q hq
    rcases hgrown.fresh hq with hold | hold
    · exact htable q hold
    · exact hg hold
  · intro q g hq
    rw [hi.tables]
    exact hgrown.mono hq
  · intro q g hq
    rw [hi.tables] at hq
    exact hgrown.fresh hq
  · intro r hr q
    rw [hi.tables]
    exact hframe r q fun hway => hr hway.1
  · intro p hp
    have hp₁ := hgrown.userPage hp
    rw [hi.refs h₁ hd hla (userBits_lt _) hempty₁ hp₁,
      hgrown.ref_eq hp₁.2.2]
  · intro x hx
    exact hothers (hx n (Finset.mem_singleton_self n))
  · intro m f' hm hleaf'
    rw [Finset.mem_singleton.1 hm] at hleaf' ⊢
    rw [hleaf] at hleaf'
    cases hleaf'
    refine ⟨page, hpage, ?_, hi.pte⟩
    rw [hi.copied, hmem hf.2.1]
    exact fun q hq => hf.2.2 (Or.inr ⟨dst, q, hq⟩)
  · intro m hm hnone
    rw [Finset.mem_singleton.1 hm, hleaf] at hnone
    cases hnone
  · -- only the new entry maps a page that was free
    have hnew : ∀ {x g}, x ∈ slots roots → g ∈ s.free →
        leafAt roots s' x = some g → x = slotOf dst (n * pgsize) := by
      intro x g hx hg hxg
      by_contra hother
      rw [leafAt, hothers hother] at hxg
      exact (h.mapped hx hxg).2.1 hg
    intro x y g hx hy hg hxg hyg
    rw [hnew hx hg hxg, hnew hy hg hyg]
  · intro q
    have hways : q ∈ waysTo {n} ↔ OnWay dst (n * pgsize) dst q := by
      rw [mem_waysTo]
      simp [OnWay]
    rw [hi.tables, hmapped, hways]
    by_cases hway : OnWay dst (n * pgsize) dst q
    · -- both tables on the way are there now
      have hsome : tableAt roots s₁ dst q ≠ none := by
        rcases hway.2 with rfl | rfl
        · intro hnone
          exact hpt (tableAt_cons_none hnone)
        · exact hpt
      exact ⟨fun hq => absurd hq hsome, fun hq => absurd hway hq.2⟩
    · rw [hframe dst q hway]
      exact ⟨fun hq => ⟨hq, hway⟩, fun hq => hq.1⟩
  · have hsome : leafAt roots s (slotOf src (n * pgsize)) ≠ none := by
      rw [hleaf]
      exact fun h => by cases h
    have herase := Finset.card_erase_add_one hi.fresh
    rw [demand_single hsome, hcard, hfree]
    omega

/-- A page of the source is copied if it is mapped, unless no page is free
for it or for a table. -/
theorem copyEntry_spec {n pt : Nat} (hd : dst ∈ roots) (hs : src ∈ roots)
    (hn : n * pgsize < usertop) (h : RefInv roots lost noHold s)
    (hpt : tableAt roots s src [pdx0 (n * pgsize), pdx1 (n * pgsize)]
      = some pt)
    (hempty : leafAt roots s (slotOf dst (n * pgsize)) = none) :
    CopyOutcome roots lost dst src {n} s
      (copyEntry s dst (pt, ptx (n * pgsize)) (n * pgsize)) := by
  have hla : pdx1 (n * pgsize) < 511 := pdx1_user hn
  have hword : ∀ {t : Machine M}, Grown roots lost s t →
      t.word (pt, ptx (n * pgsize))
        = pteAt roots s (slotOf src (n * pgsize)) := by
    intro t hgrown
    rw [← hgrown.pte_eq]
    simp only [pteAt, slotOf, hgrown.mono hpt]
    rfl
  unfold copyEntry
  rw [hword (Grown.refl h.forest)]
  by_cases hv : hasFlag (pteAt roots s (slotOf src (n * pgsize))) pteV
  · rw [if_pos hv]
    obtain ⟨f, hleaf⟩ : ∃ f,
        leafAt roots s (slotOf src (n * pgsize)) = some f := by
      apply Option.ne_none_iff_exists'.1
      intro hnone
      exact frameOf_eq_none_iff.1 hnone hv
    have hf := h.mapped (slotOf_mem hs hla) hleaf
    have hdemand : demand roots s dst src {n}
        = 1 + missing roots s dst (n * pgsize) := by
      apply demand_single
      rw [hleaf]
      exact fun h => by cases h
    obtain ⟨o, s₁, hget, hgrown, hframe, hnull, hsome⟩ :=
      getPte_exact h.forest hd hla
    rw [hget]
    cases o with
    | none =>
        have hfew := hnull rfl
        exact Or.inr ⟨fun s' heq => (by cases heq), by omega⟩
    | some ptep =>
        obtain ⟨g, -, hg, hcard⟩ := hsome ptep rfl
        have h₁ := h.grown hgrown
        dsimp only
        rw [hword hgrown, hf.1.pte2page_eq hleaf]
        dsimp only
        cases halloc : allocPage s₁ with
        | none =>
            have hnone := allocPage_none halloc
            rw [hnone, Finset.card_empty] at hcard
            exact Or.inr ⟨fun s' heq => (by cases heq), by omega⟩
        | some a =>
            obtain ⟨page, s₂⟩ := a
            have hdt : tableAt roots s₁ dst
                [pdx0 (n * pgsize), pdx1 (n * pgsize)] ≠ none := by
              rw [hg]
              exact fun h => by cases h
            obtain ⟨s', hrun, hi⟩ := install_copy h₁ hd hla hdt
              (hgrown.userPage hf)
              (userBits_lt (pteAt roots s (slotOf src (n * pgsize)))) halloc
            exact Or.inl ⟨s', hrun, Copied.page hd hn h hleaf hempty hf
              hgrown hframe hdt (getPte_mem h.forest hd hla hget) hcard hi⟩
  · rw [if_neg hv]
    refine Or.inl ⟨s, rfl, Copied.skip h ?_⟩
    unfold mappedOf
    rw [Finset.filter_singleton, if_neg]
    rw [not_not]
    exact frameOf_eq_none_iff.2 hv

-- ========================================================== the loop

/-- What `dst` does not map. -/
def Unused (roots : Finset Nat) (s : Machine M) (dst : Nat)
    (N : Finset Nat) : Prop :=
  ∀ n ∈ N, leafAt roots s (slotOf dst (n * pgsize)) = none

/-- Pages that are not among those copied stay unused. -/
theorem Unused.copied (hunused : Unused roots s dst N')
    (h : Copied roots lost dst src N s s')
    (hN : ∀ n ∈ N, n * pgsize < usertop)
    (hN' : ∀ n ∈ N', n * pgsize < usertop) (hdisj : Disjoint N N') :
    Unused roots s' dst N' := by
  intro n hn
  rw [leafAt, h.outside]
  · exact hunused n hn
  · exact fun m hm => slotOf_page_ne (hN' n hn) (hN m hm)
      fun heq => Finset.disjoint_left.1 hdisj (heq ▸ hm) hn

/-- What follows after some pages were copied. -/
theorem CopyOutcome.after {r : Option (Bool × Machine M)} (hd : dst ∈ roots)
    (hs : src ∈ roots) (hne : dst ≠ src)
    (hN : ∀ n ∈ N, n * pgsize < usertop)
    (hN' : ∀ n ∈ N', n * pgsize < usertop) (hdisj : Disjoint N N')
    (hinv : RefInv roots lost noHold s)
    (h : Copied roots lost dst src N s s₁)
    (hout : CopyOutcome roots lost dst src N' s₁ r) :
    CopyOutcome roots lost dst src (N ∪ N') s r := by
  rcases hout with ⟨s', hrun, h'⟩ | ⟨hfail, hfew⟩
  · exact Or.inl ⟨s', hrun, h.trans hd hs hne hN hN' hdisj hinv h'⟩
  · have hunion := h.demand_union hne hdisj
    have hcard := h.card
    exact Or.inr ⟨hfail, by omega⟩

/-- Too few pages for some are too few for more. -/
theorem CopyOutcome.fails {r r' : Option (Bool × Machine M)}
    (hfail : ∀ s', r' ≠ some (true, s'))
    (hout : CopyOutcome roots lost dst src N s r)
    (hr : ∀ s', r ≠ some (true, s')) (hsub : N ⊆ N') :
    CopyOutcome roots lost dst src N' s r' := by
  rcases hout with ⟨s', hrun, -⟩ | ⟨-, hfew⟩
  · exact absurd hrun (hr s')
  · exact Or.inr ⟨hfail, Nat.lt_of_lt_of_le hfew (demand_mono hsub)⟩

theorem pagesOf_split (mid : Nat) (hlo : start ≤ mid) (hhi : mid ≤ last) :
    pagesOf start mid ∪ pagesOf mid last = pagesOf start last :=
  Finset.Ico_union_Ico_eq_Ico (Nat.div_le_div_right hlo)
    (Nat.div_le_div_right hhi)

theorem pagesOf_disjoint (mid : Nat) :
    Disjoint (pagesOf start mid) (pagesOf mid last) :=
  Finset.Ico_disjoint_Ico_consecutive _ _ _

theorem pagesOf_page (start : Nat) :
    pagesOf start (start + pgsize) = {start / pgsize} := by
  unfold pagesOf
  rw [Nat.add_div_right start (by decide), Nat.Ico_succ_singleton]

/-- The loop of `copy_range` copies what is left of its range. The induction
is on the fuel, of which every page left needs one. -/
theorem copyLoop_spec (hd : dst ∈ roots) (hs : src ∈ roots)
    (hne : dst ≠ src) (htop : last ≤ usertop) (hlast : last % pgsize = 0) :
    ∀ {fuel : Nat} {s : Machine M} {start : Nat},
      RefInv roots lost noHold s → start % pgsize = 0 → start < last →
      last - start ≤ fuel * pgsize →
      Unused roots s dst (pagesOf start last) →
      CopyOutcome roots lost dst src (pagesOf start last) s
        (copyLoop dst src last fuel s start) := by
  intro fuel
  induction fuel with
  | zero =>
      intro s start _ _ hlt hfuel
      omega
  | succ fuel ih =>
      intro s start h hstart hlt hfuel hunused
      have hla : pdx1 start < 511 := pdx1_user (by omega)
      have hpg : 0 < pgsize := by decide
      -- the rounds that follow once the pages up to `next` are copied
      have hrest : ∀ {s₁ : Machine M} {next : Nat}, start + pgsize ≤ next →
          next % pgsize = 0 →
          Copied roots lost dst src (pagesOf start (min next last)) s s₁ →
          CopyOutcome roots lost dst src (pagesOf start last) s
            (if next ≠ 0 ∧ next < last then
              copyLoop dst src last fuel s₁ next else some (true, s₁)) := by
        intro s₁ next hnext hnextp hcopied
        by_cases hmore : next < last
        · rw [if_pos ⟨by omega, hmore⟩]
          rw [Nat.min_eq_left (Nat.le_of_lt hmore)] at hcopied
          have hbelow := pagesOf_below start (show next ≤ usertop by omega)
          have hbelow' := pagesOf_below next htop
          have hunused' : Unused roots s dst (pagesOf next last) := by
            intro n hn
            apply hunused
            rw [← pagesOf_split next (by omega) (by omega)]
            exact Finset.mem_union_right _ hn
          have hfuel' : last - next ≤ fuel * pgsize := by
            unfold pgsize at *
            omega
          rw [← pagesOf_split next (by omega) (by omega)]
          exact CopyOutcome.after hd hs hne hbelow hbelow'
            (pagesOf_disjoint next) h hcopied
            (ih hcopied.inv hnextp hmore hfuel'
              (hunused'.copied hcopied hbelow hbelow' (pagesOf_disjoint next)))
        · rw [if_neg fun hc => hmore hc.2]
          rw [Nat.min_eq_right (by omega)] at hcopied
          exact Or.inl ⟨s₁, rfl, hcopied⟩
      have hpage : min (start + pgsize) last = start + pgsize := by
        unfold pgsize at *
        omega
      have hone := pagesOf_page start
      have haddr := div_page hstart
      unfold copyLoop
      rw [getPte_look h.forest hs hla]
      cases hpt : tableAt roots s src [pdx0 start, pdx1 start] with
      | none =>
          obtain ⟨hnext, hnextp⟩ := rounddown_next hstart
          dsimp only [Option.map_none]
          apply hrest hnext hnextp
          apply Copied.skip h
          apply Finset.filter_eq_empty_iff.2
          intro n hn
          rw [not_not]
          obtain ⟨hge, hbefore⟩ := pagesOf_range hstart hn
          obtain ⟨hd1, hd0⟩ := pdx_of_lt_rounddown hge
            (Nat.lt_of_lt_of_le hbefore (Nat.min_le_left _ _))
          simp only [leafAt, pteAt, slotOf, hd1, hd0, hpt, frameOf_zero]
      | some pt =>
          have hempty : leafAt roots s (slotOf dst start) = none := by
            have hin : start / pgsize ∈ pagesOf start last := by
              apply Finset.mem_Ico.2
              unfold pgsize at *
              omega
            have hnone := hunused _ hin
            rwa [haddr] at hnone
          have hout := copyEntry_spec (n := start / pgsize) hd hs
            (by rw [haddr]; omega) h (by rwa [haddr]) (by rwa [haddr])
          rw [haddr] at hout
          have hsub : {start / pgsize} ⊆ pagesOf start last := by
            apply Finset.singleton_subset_iff.2
            apply Finset.mem_Ico.2
            unfold pgsize at *
            omega
          dsimp only [Option.map_some]
          cases hr : copyEntry s dst (pt, ptx start) start with
          | none =>
              rw [hr] at hout
              exact hout.fails (fun _ heq => (by cases heq))
                (fun _ heq => (by cases heq)) hsub
          | some a =>
              obtain ⟨ok, s₁⟩ := a
              rw [hr] at hout
              cases ok with
              | false =>
                  exact hout.fails (fun _ heq => (by cases heq))
                    (fun _ heq => (by cases heq)) hsub
              | true =>
                  rcases hout with ⟨s', hrun, hcopied⟩ | ⟨hfail, -⟩
                  · cases hrun
                    apply hrest le_rfl
                    · unfold pgsize at *
                      omega
                    · rwa [hpage, hone]
                  · exact absurd rfl (hfail s₁)

/-- `copy_range` copies the pages of its range. -/
theorem copyRange_spec (share : Bool) (h : RefInv roots lost noHold s)
    (hd : dst ∈ roots) (hs : src ∈ roots) (hne : dst ≠ src)
    (hstart : start % pgsize = 0) (hlast : last % pgsize = 0)
    (hua : userAccess start last)
    (hunused : Unused roots s dst (pagesOf start last)) :
    CopyOutcome roots lost dst src (pagesOf start last) s
      (copyRange s dst src start last share) := by
  unfold copyRange
  rw [if_pos ⟨hstart, hlast, hua⟩]
  apply copyLoop_spec hd hs hne hua.2.2 hlast h hstart hua.2.1 _ hunused
  unfold pgsize at *
  omega

-- ========================================================== dup_mmap

/-- The pages of some areas. -/
def vmaPages : List Vma → Finset Nat
  | [] => ∅
  | vma :: vmas => pagesOf vma.vmStart vma.vmEnd ∪ vmaPages vmas

theorem mem_vmaPages {vmas : List Vma} {n : Nat} :
    n ∈ vmaPages vmas ↔ ∃ vma ∈ vmas, n ∈ pagesOf vma.vmStart vma.vmEnd := by
  induction vmas with
  | nil => simp [vmaPages]
  | cons vma vmas ih =>
      rw [vmaPages, Finset.mem_union, ih, List.exists_mem_cons_iff]

theorem vmaPages_reverse (vmas : List Vma) :
    vmaPages vmas.reverse = vmaPages vmas := by
  ext n
  simp only [mem_vmaPages, List.mem_reverse]

theorem mem_pagesOf {vma : Vma} (hok : VmaOk vma) {va : Nat} :
    va / pgsize ∈ pagesOf vma.vmStart vma.vmEnd ↔ vma.Has va := by
  obtain ⟨h1, h2, -⟩ := hok
  unfold pagesOf Vma.Has
  rw [Finset.mem_Ico]
  unfold pgsize at *
  omega

/-- An address is in the areas exactly if its page is. -/
theorem inVmas_iff {vmas : List Vma} (hok : ∀ vma ∈ vmas, VmaOk vma)
    {va : Nat} : InVmas vmas va ↔ va / pgsize ∈ vmaPages vmas := by
  rw [mem_vmaPages]
  constructor
  · intro h
    obtain ⟨vma, hin, hva⟩ := h
    exact ⟨vma, hin, (mem_pagesOf (hok vma hin)).2 hva⟩
  · intro h
    obtain ⟨vma, hin, hn⟩ := h
    exact ⟨vma, hin, (mem_pagesOf (hok vma hin)).1 hn⟩

theorem vmaPages_below {vmas : List Vma} (hok : ∀ vma ∈ vmas, VmaOk vma) :
    ∀ n ∈ vmaPages vmas, n * pgsize < usertop := by
  intro n hn
  obtain ⟨vma, hin, hn⟩ := mem_vmaPages.1 hn
  exact pagesOf_below vma.vmStart (hok vma hin).2.2.2.2 n hn

/-- How `dup_mmap` ends. -/
def DupOutcome (roots : Finset Nat) (lost : Set Nat) (src : Nat)
    (vmas : List Vma) (dst : MmStruct) (s : Machine M)
    (r : Option (Bool × MmStruct × Machine M)) : Prop :=
  (∃ s', r = some (true,
        { dst with
            mmapList := vmas.reverse ++ dst.mmapList,
            mapCount := dst.mapCount + vmas.length },
        s')
      ∧ Copied roots lost dst.pgdir src (vmaPages vmas) s s')
    ∨ (∀ dst' s', r ≠ some (true, dst', s'))
      ∧ s.free.card < demand roots s dst.pgdir src (vmaPages vmas)

/-- The loop of `dup_mmap`, over areas from the last to the first. -/
theorem dupVmas_spec (hs : src ∈ roots) :
    ∀ {vmas : List Vma} {dst : MmStruct} {s : Machine M},
      RefInv roots lost noHold s → dst.pgdir ∈ roots → dst.pgdir ≠ src →
      Sorted (vmas.reverse ++ dst.mmapList) →
      (∀ vma ∈ vmas.reverse ++ dst.mmapList, VmaOk vma) →
      Unused roots s dst.pgdir (vmaPages vmas) →
      DupOutcome roots lost src vmas dst s (dupVmas src vmas dst s) := by
  intro vmas
  induction vmas with
  | nil =>
      intro dst s h _ _ _ _ _
      exact Or.inl ⟨s, rfl, Copied.skip h (Finset.filter_empty _)⟩
  | cons vma vmas ih =>
      intro dst s h hd hne hsorted hok hunused
      rw [List.reverse_cons, List.append_assoc, List.singleton_append]
        at hsorted hok
      have hokv : VmaOk vma := hok vma (by simp)
      have hparts := List.pairwise_append.1 hsorted
      have hfirst : insertVmaStruct dst vma = some { dst with
          mmapList := vma :: dst.mmapList, mapCount := dst.mapCount + 1 } :=
        insertVmaStruct_first hparts.2.1
          fun v hv => hok v (List.mem_append_right _ hv)
      have hoks : ∀ v ∈ vmas, VmaOk v := fun v hv =>
        hok v (List.mem_append_left _ (List.mem_reverse.2 hv))
      have hbelow := pagesOf_below vma.vmStart hokv.2.2.2.2
      have hbelow' := vmaPages_below hoks
      have hdisj : Disjoint (pagesOf vma.vmStart vma.vmEnd)
          (vmaPages vmas) := by
        apply Finset.disjoint_left.2
        intro n hn hn'
        obtain ⟨v, hv, hn'⟩ := mem_vmaPages.1 hn'
        have hle := hparts.2.2 v (List.mem_reverse.2 hv) vma
          List.mem_cons_self
        have hle' := Nat.div_le_div_right (c := pgsize) hle
        have h1 := (Finset.mem_Ico.1 hn).1
        have h2 := (Finset.mem_Ico.1 hn').2
        omega
      have hunused₁ : Unused roots s dst.pgdir
          (pagesOf vma.vmStart vma.vmEnd) := fun n hn =>
        hunused n (Finset.mem_union_left _ hn)
      have hunused₂ : Unused roots s dst.pgdir (vmaPages vmas) := fun n hn =>
        hunused n (Finset.mem_union_right _ hn)
      have hcopy := copyRange_spec false h hd hs hne hokv.1
        hokv.2.1 hokv.2.2 hunused₁
      unfold dupVmas
      rw [hfirst]
      dsimp only
      rcases hcopy with ⟨s₁, hrun₁, hcopied₁⟩ | ⟨hfail, hfew⟩
      · rw [hrun₁]
        dsimp only
        let dst₁ : MmStruct := { dst with
          mmapList := vma :: dst.mmapList, mapCount := dst.mapCount + 1 }
        have hd₁ : dst₁.pgdir ∈ roots := hd
        rcases ih hcopied₁.inv hd₁ hne hsorted hok
            (hunused₂.copied hcopied₁ hbelow hbelow' hdisj) with
          ⟨s₂, hrun₂, hcopied₂⟩ | ⟨hfail, hfew⟩
        · refine Or.inl ⟨s₂, ?_,
            hcopied₁.trans hd hs hne hbelow hbelow' hdisj h hcopied₂⟩
          rw [hrun₂, List.reverse_cons, List.append_assoc,
            List.singleton_append, List.length_cons, Nat.add_assoc,
            Nat.add_comm 1]
        · refine Or.inr ⟨hfail, ?_⟩
          have hunion := hcopied₁.demand_union hne hdisj
          have hcard := hcopied₁.card
          have hleft : s₁.free.card
              < demand roots s₁ dst.pgdir src (vmaPages vmas) := hfew
          unfold vmaPages
          omega
      · refine Or.inr ⟨?_, Nat.lt_of_lt_of_le hfew
          (demand_mono Finset.subset_union_left)⟩
        intro dst' s' heq
        cases hr : copyRange s dst.pgdir src vma.vmStart vma.vmEnd false with
        | none =>
            rw [hr] at heq
            cases heq
        | some r =>
            obtain ⟨b, s₁⟩ := r
            cases b with
            | false =>
                rw [hr] at heq
                cases heq
            | true => exact hfail s₁ hr

/-- From `s` to `s'` the address space `dst`, which mapped nothing, became a
copy of what `src` maps in some areas. -/
structure Duplicate (roots : Finset Nat) (lost : Set Nat) (dst src : Nat)
    (vmas : List Vma) (s s' : Machine M) : Prop where
  inv : RefInv roots lost noHold s'
  pages : ∀ va < usertop, leafAt roots s' (slotOf dst va) ≠ none
    ↔ InVmas vmas va ∧ leafAt roots s (slotOf src va) ≠ none
  perms : ∀ {va}, InVmas vmas va →
    leafAt roots s (slotOf src va) ≠ none →
    pteAt roots s' (slotOf dst va) &&& pteUser
      = pteAt roots s (slotOf src va) &&& pteUser
  bytes : ∀ {va f}, InVmas vmas va →
    leafAt roots s (slotOf src va) = some f →
    ∃ g, leafAt roots s' (slotOf dst va) = some g ∧ s'.mem g = s.mem f
  /-- The frames of the copy are mapped nowhere else. -/
  frames : ∀ {va g}, va < usertop →
    leafAt roots s' (slotOf dst va) = some g →
    g ∈ s.free
      ∧ ∀ x ∈ slots roots, leafAt roots s' x = some g → x = slotOf dst va
  srcTables : ∀ q, tableAt roots s' src q = tableAt roots s src q
  srcEntries : ∀ {q f}, tableAt roots s src q = some f → s'.mem f = s.mem f
  srcPages : ∀ {va f}, va < usertop →
    leafAt roots s (slotOf src va) = some f →
    leafAt roots s' (slotOf src va) = some f
      ∧ s'.mem f = s.mem f ∧ s'.ref f = s.ref f

theorem Copied.duplicate {vmas : List Vma} (hd : dst ∈ roots)
    (hs : src ∈ roots) (hne : dst ≠ src)
    (hok : ∀ vma ∈ vmas, VmaOk vma) (hinv : RefInv roots lost noHold s)
    (hempty : ∀ va < usertop, leafAt roots s (slotOf dst va) = none)
    (h : Copied roots lost dst src (vmaPages vmas) s s') :
    Duplicate roots lost dst src vmas s s' := by
  -- a slot is that of the first address of its page
  have hslot : ∀ r va, slotOf r (va / pgsize * pgsize) = slotOf r va := by
    intro r va
    apply slotOf_eq
    rw [page_div]
  have hcopy : ∀ {va f}, InVmas vmas va →
      leafAt roots s (slotOf src va) = some f →
      ∃ g ∈ s.free, s'.mem g = s.mem f ∧ pteAt roots s' (slotOf dst va)
        = copiedPte g (pteAt roots s (slotOf src va)) := by
    intro va f hva hleaf
    have hcopied := h.copied (n := va / pgsize) (f := f)
      ((inVmas_iff hok).1 hva)
    rw [hslot, hslot] at hcopied
    exact hcopied hleaf
  have hmaps : ∀ {va f}, InVmas vmas va →
      leafAt roots s (slotOf src va) = some f →
      ∃ g, leafAt roots s' (slotOf dst va) = some g ∧ s'.mem g = s.mem f := by
    intro va f hva hleaf
    obtain ⟨g, hfree, hmem, hpte⟩ := hcopy hva hleaf
    refine ⟨g, ?_, hmem⟩
    rw [leafAt, hpte]
    exact frameOf_copiedPte (hinv.forest.freeManaged hfree)
  refine ⟨h.inv, ?_, ?_, hmaps, ?_, ?_, ?_, ?_⟩
  · intro va hlt
    constructor
    · intro hmapped
      by_cases hva : InVmas vmas va
      · refine ⟨hva, ?_⟩
        intro hnone
        apply hmapped
        have hsame := h.unmapped (n := va / pgsize) ((inVmas_iff hok).1 hva)
        rw [hslot, hslot] at hsame
        rw [leafAt, hsame hnone]
        exact hempty va hlt
      · exfalso
        apply hmapped
        rw [leafAt, h.outside]
        · exact hempty va hlt
        · intro n hn
          apply slotOf_ne hlt (vmaPages_below hok n hn)
          intro heq
          rw [page_div] at heq
          exact hva ((inVmas_iff hok).2 (heq ▸ hn))
    · intro hboth
      obtain ⟨hva, hsrc⟩ := hboth
      obtain ⟨f, hleaf⟩ := Option.ne_none_iff_exists'.1 hsrc
      obtain ⟨g, hg, -⟩ := hmaps hva hleaf
      rw [hg]
      exact fun h => by cases h
  · intro va hva hsrc
    obtain ⟨f, hleaf⟩ := Option.ne_none_iff_exists'.1 hsrc
    obtain ⟨g, -, -, hpte⟩ := hcopy hva hleaf
    rw [hpte, copiedPte_user]
    by_contra hv
    exact hsrc (frameOf_eq_none_iff.2 hv)
  · intro va g hlt hg
    have hfree : g ∈ s.free := by
      rcases h.leaf hinv hg with hold | hfree
      · rw [hempty va hlt] at hold
        cases hold
      · exact hfree
    refine ⟨hfree, fun x hx hxg => ?_⟩
    exact h.once hx (slotOf_mem hd (pdx1_user hlt)) hfree hxg hg
  · exact h.others src fun heq => hne heq.symm
  · intro q f hf
    apply h.mem (hinv.forest.notFree hf)
    intro q' hq'
    exact hne (hinv.forest.inj hq' hf).1
  · intro va f hlt hleaf
    have hf := hinv.mapped (slotOf_mem hs (pdx1_user hlt)) hleaf
    refine ⟨?_, h.mem_user hf, h.ref hf⟩
    rw [leafAt, h.source hne]
    exact hleaf

/-- `dup_mmap` to an empty address space copies the areas and what is mapped
in them, exactly when the pages it takes are free. -/
theorem dup_mmap_copies (dst src : MmStruct)
    (h : RefInv roots lost noHold s) (hd : dst.pgdir ∈ roots)
    (hs : src.pgdir ∈ roots) (hne : dst.pgdir ≠ src.pgdir)
    (hsorted : Sorted src.mmapList) (hok : ∀ vma ∈ src.mmapList, VmaOk vma)
    (hlist : dst.mmapList = [])
    (hempty : ∀ va < usertop, leafAt roots s (slotOf dst.pgdir va) = none) :
    (demand roots s dst.pgdir src.pgdir (vmaPages src.mmapList)
        ≤ s.free.card →
      ∃ s', dupMmap s dst src = some (true, { dst with
            mmapList := src.mmapList,
            mapCount := dst.mapCount + src.mmapList.length }, s')
        ∧ Duplicate roots lost dst.pgdir src.pgdir src.mmapList s s')
    ∧ (s.free.card
        < demand roots s dst.pgdir src.pgdir (vmaPages src.mmapList) →
      ∀ dst' s', dupMmap s dst src ≠ some (true, dst', s')) := by
  have hunused : Unused roots s dst.pgdir
      (vmaPages src.mmapList.reverse) := by
    intro n hn
    rw [vmaPages_reverse] at hn
    exact hempty _ (vmaPages_below hok n hn)
  have hout := dupVmas_spec hs h hd hne
    (by rwa [List.reverse_reverse, hlist, List.append_nil])
    (by rwa [List.reverse_reverse, hlist, List.append_nil]) hunused
  unfold DupOutcome at hout
  rw [vmaPages_reverse, List.reverse_reverse, hlist, List.append_nil,
    List.length_reverse] at hout
  constructor
  · intro henough
    rcases hout with ⟨s', hrun, hcopied⟩ | ⟨-, hfew⟩
    · exact ⟨s', hrun, hcopied.duplicate hd hs hne hok h hempty⟩
    · omega
  · intro hfew dst' s' hrun
    rcases hout with ⟨s₁, -, hcopied⟩ | ⟨hfail, -⟩
    · have hcard := hcopied.card
      omega
    · exact hfail dst' s' hrun

/-- The parent's area. -/
def onePage : Vma := ⟨0x800000, 0x801000, vmRead ||| vmWrite⟩

/-- The page of the parent is copied to the child. -/
theorem dup_mmap_copies_one : ∃ s s' : Machine lowestFirst,
    leafAt parentAndChild s (slotOf 0x80300 0x800000) = some 0x80301
      ∧ dupMmap s (mmCreate 0x80310)
          { mmCreate 0x80300 with mmapList := [onePage] }
        = some (true, { mmCreate 0x80310 with
            mmapList := [onePage], mapCount := 1 }, s')
      ∧ Duplicate parentAndChild ∅ 0x80310 0x80300 [onePage] s s' := by
  obtain ⟨-, s, -, -, h, hleaf, hempty, hcard⟩ := parent_first
  have hok : ∀ vma ∈ [onePage], VmaOk vma := by
    intro vma hvma
    rw [List.mem_singleton.1 hvma]
    unfold VmaOk
    decide
  have hone : vmaPages [onePage] = {0x800} := by
    decide +kernel
  have hdemand : demand parentAndChild s 0x80310 0x80300 (vmaPages [onePage])
      ≤ s.free.card := by
    have hmapped : leafAt parentAndChild s (slotOf 0x80300 (0x800 * pgsize))
        ≠ none := by
      rw [show 0x800 * pgsize = 0x800000 from rfl, hleaf]
      exact fun h => by cases h
    rw [hone, demand_single hmapped, hcard, missing]
    split <;> split <;> decide
  obtain ⟨hcopies, -⟩ := dup_mmap_copies (mmCreate 0x80310)
    { mmCreate 0x80300 with mmapList := [onePage] }
    h (by decide) (by decide) (by decide) (List.pairwise_singleton _ _) hok
    rfl fun va _ => hempty va
  obtain ⟨s', hrun, hdup⟩ := hcopies hdemand
  exact ⟨s, s', hleaf, hrun, hdup⟩

end Ucore.Mm
