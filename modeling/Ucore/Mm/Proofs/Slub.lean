/-
A SLUB cache hands out one object, over and over.

A new slab's first object is returned without being taken off the slab's
list, and an object that is freed is linked to itself. As long as there is no
second allocation, the cache is in one of three states (`Phase`), and the only
object it ever returns is the first of its one slab.
-/
import Ucore.Mm.Slub
import Mathlib.Tactic.Ring

namespace Ucore.Slub

variable {objSize : Nat} {w w' w₀ : World} {l : Label} {ls : List Label}

/-- The states of a cache of which at most one object is allocated. -/
inductive Phase : World → Prop
  | fresh (mem : Nat → Nat) : Phase ⟨⟨mem, []⟩, []⟩
  | taken (mem : Nat → Nat) (page : Nat) (hpos : 0 < page) :
      Phase ⟨⟨mem, [⟨page, page⟩]⟩, [page]⟩
  | free (mem : Nat → Nat) (page : Nat) (hpos : 0 < page)
      (hself : mem page = page) : Phase ⟨⟨mem, [⟨page, page⟩]⟩, []⟩

theorem Phase.sound (hmax : objSize ≤ slubMaxObjsize) (h : Phase w) :
    Sound objSize w := by
  have hsize : slubMaxObjsize ≤ pageSize := by decide
  cases h with
  | fresh mem => exact ⟨List.Pairwise.nil, fun a ha => by cases ha⟩
  | taken mem page hpos =>
      refine ⟨List.pairwise_singleton _ _, fun a ha => ?_⟩
      rw [List.mem_singleton.1 ha]
      exact ⟨_, List.mem_cons_self, Nat.le_refl _,
        Nat.add_le_add_left (Nat.le_trans hmax hsize) page⟩
  | free mem page hpos hself =>
      exact ⟨List.Pairwise.nil, fun a ha => by cases ha⟩

theorem virtToSlab_self (page : Nat) : virtToSlab page ⟨page, page⟩ = true := by
  simp [virtToSlab, pageSize]

/-- A step with no second allocation. -/
theorem Phase.step (h : Phase w) (hstep : AloneStep objSize w l w') :
    Phase w' := by
  obtain ⟨hstep, halone⟩ := hstep
  cases h with
  | fresh mem =>
      cases hstep with
      | @alloc ok page r s hpage hcall =>
          unfold kmemCacheAlloc takeFirst at hcall
          cases ok with
          | false =>
              cases hcall
              exact .fresh mem
          | true =>
              cases page with
              | none =>
                  cases hcall
                  exact .fresh mem
              | some page =>
                  have hpos := (hpage page rfl).pos
                  cases hcall
                  rw [if_neg (by simp only; omega)]
                  exact .taken _ page hpos
      | free hlive hcall => cases hlive
      | write hlive hlo hhi => cases hlive
  | taken mem page hpos =>
      cases hstep with
      | alloc hpage hcall => cases halone
      | free hlive hcall =>
          obtain rfl := List.mem_singleton.1 hlive
          unfold kmemCacheFree at hcall
          simp only [setFreelist, virtToSlab_self, if_true, List.find?_cons]
            at hcall
          cases hcall
          simp only [List.erase_cons_head]
          exact .free _ _ hpos (Function.update_self ..)
      | write hlive hlo hhi => exact .taken _ page hpos
  | free mem page hpos hself =>
      cases hstep with
      | alloc hpage hcall =>
          unfold kmemCacheAlloc takeFirst at hcall
          rw [if_pos (by simp only; omega)] at hcall
          cases hcall
          simp only [hself]
          rw [if_neg (by omega)]
          exact .taken mem page hpos
      | free hlive hcall => cases hlive
      | write hlive hlo hhi => cases hlive

/-- With an object allocated, `kmem_cache_alloc` returns that object. -/
theorem Phase.again (hmin : slubMinObjsize ≤ objSize) (h : Phase w)
    (hstep : Step objSize w l w') (halone : ¬ Alone w l) :
    ¬ Sound objSize w' := by
  intro hsound
  cases hstep with
  | free hlive hcall => exact halone trivial
  | write hlive hlo hhi => exact halone trivial
  | alloc hpage hcall =>
      cases h with
      | fresh mem => exact halone rfl
      | free mem page hpos hself => exact halone rfl
      | taken mem page hpos =>
          unfold kmemCacheAlloc takeFirst at hcall
          rw [if_pos (by simp only; omega)] at hcall
          cases hcall
          have hapart := hsound.apart
          rw [if_neg (by simp only; omega)] at hapart
          have htwice := (List.pairwise_cons.1 hapart).1 page
            List.mem_cons_self
          unfold slubMinObjsize at hmin
          simp only at htwice
          omega

/-- In a run in which `kmem_cache_alloc` is only called with no object
allocated, objects are disjoint and in their pages; and that call is the only
one after which they are not. -/
theorem slub_objects_disjoint (hmin : slubMinObjsize ≤ objSize)
    (hmax : objSize ≤ slubMaxObjsize) (hstart : Start w₀)
    (hrun : Run (AloneStep objSize) w₀ ls w) :
    Sound objSize w
      ∧ ∀ l w', Step objSize w l w' → (Sound objSize w' ↔ Alone w l) := by
  have hinit : Phase w₀ := by
    obtain ⟨⟨mem, slabs⟩, live⟩ := w₀
    obtain ⟨hslabs, hlive⟩ := hstart
    simp only at hslabs hlive
    rw [hslabs, hlive]
    exact .fresh mem
  have h : Phase w := hrun.invariant (I := Phase) (fun h hs => h.step hs) hinit
  refine ⟨h.sound hmax, fun l w' hstep => ⟨fun hsound => ?_, fun halone => ?_⟩⟩
  · by_contra halone
    exact h.again hmin hstep halone hsound
  · exact (h.step ⟨hstep, halone⟩).sound hmax

/-- A cache of objects of 128 bytes that has no slab yet. -/
def emptyCache : World := ⟨⟨fun _ => 0, []⟩, []⟩

theorem emptyCache_fresh (page : Nat) (hpos : 0 < page) :
    Fresh emptyCache.state page :=
  ⟨hpos, fun slab hslab => by cases hslab⟩

/-- An allocation of the first object. -/
theorem emptyCache_alloc : ∃ s, Step 128 emptyCache (.alloc 4096) ⟨s, [4096]⟩
    ∧ takeFirst s.mem s.slabs = some (4096, [⟨4096, s.mem 4096⟩]) := by
  refine ⟨_, @Step.alloc 128 _ true (some 4096) _ _ ?_ rfl, rfl⟩
  intro p hp
  cases hp
  exact emptyCache_fresh 4096 (by decide)

/-- Two allocations get the same object. -/
theorem slub_objects_overlap :
    ¬ ∀ (objSize : Nat) (w₀ w : World) (ls : List Label),
      slubMinObjsize ≤ objSize → objSize ≤ slubMaxObjsize → Start w₀ →
      Run (Step objSize) w₀ ls w → Sound objSize w := by
  intro hall
  obtain ⟨s, hfirst, htake⟩ := emptyCache_alloc
  have hsecond : Step 128 ⟨s, [4096]⟩ (.alloc 4096)
      ⟨{ s with slabs := [⟨4096, s.mem 4096⟩] }, [4096, 4096]⟩ := by
    refine @Step.alloc 128 _ true none _ _ ?_ ?_
    · intro p hp
      cases hp
    · unfold kmemCacheAlloc
      rw [htake]
  have hsound := hall 128 emptyCache _ _ (by decide) (by decide) ⟨rfl, rfl⟩
    (.cons hfirst (.single hsecond))
  have htwice := (List.pairwise_cons.1 hsound.apart).1 4096 List.mem_cons_self
  omega

theorem slub_objects_disjoint_one : ∃ s, Sound 128 ⟨s, [4096]⟩ := by
  obtain ⟨s, hfirst, -⟩ := emptyCache_alloc
  exact ⟨s, (slub_objects_disjoint (by decide) (by decide) ⟨rfl, rfl⟩
    (.single ⟨hfirst, rfl⟩)).1⟩

-- ======================================================== the counts

section Counts

variable {w w' w₀ : Counted} {a : Action} {as : List Action}

/-- A step with the counters is a step. -/
theorem CountStep.step (h : CountStep objSize w a w') :
    ∃ l, Step objSize w.toWorld l w'.toWorld := by
  cases h with
  | alloc hpage hcall => exact ⟨_, .alloc hpage hcall⟩
  | free hlive hcall => exact ⟨_, .free hlive hcall⟩
  | @write obj addr v hlive hlo hhi => exact ⟨.write obj addr, .write hlive hlo hhi⟩

/-- An object is taken from the first slab that has one, and all slabs keep
their pages. -/
theorem takeFirst_pages {mem : Nat → Nat} {slabs slabs' : List Slab}
    {obj : Nat} (h : takeFirst mem slabs = some (obj, slabs')) :
    slabs'.map Slab.page = slabs.map Slab.page
      ∧ ∃ slab ∈ slabs,
        slabs.find? (fun slab => decide (slab.freelist ≠ 0)) = some slab := by
  induction slabs generalizing slabs' with
  | nil => cases h
  | cons slab slabs ih =>
      unfold takeFirst at h
      by_cases hfree : slab.freelist ≠ 0
      · rw [if_pos hfree] at h
        cases h
        refine ⟨rfl, slab, List.mem_cons_self, ?_⟩
        rw [List.find?_cons, decide_eq_true hfree]
      · rw [if_neg hfree] at h
        cases hrest : takeFirst mem slabs with
        | none =>
            rw [hrest] at h
            cases h
        | some r =>
            obtain ⟨obj', rest⟩ := r
            rw [hrest] at h
            cases h
            obtain ⟨hpages, slab', hin, hfind⟩ := ih hrest
            refine ⟨congrArg (slab.page :: ·) hpages, slab',
              List.mem_cons_of_mem slab hin, ?_⟩
            rw [List.find?_cons, decide_eq_false hfree]
            exact hfind

/-- No slab has an object. -/
theorem takeFirst_none {mem : Nat → Nat} {slabs : List Slab}
    (h : takeFirst mem slabs = none) :
    slabs.find? (fun slab => decide (slab.freelist ≠ 0)) = none := by
  induction slabs with
  | nil => rfl
  | cons slab slabs ih =>
      unfold takeFirst at h
      by_cases hfree : slab.freelist ≠ 0
      · rw [if_pos hfree] at h
        cases h
      · rw [if_neg hfree] at h
        rw [List.find?_cons, decide_eq_false hfree]
        cases hrest : takeFirst mem slabs with
        | none => exact ih hrest
        | some r =>
            rw [hrest] at h
            cases h

theorem setFreelist_pages (obj : Nat) (slabs : List Slab) :
    (setFreelist obj slabs).map Slab.page = slabs.map Slab.page := by
  induction slabs with
  | nil => rfl
  | cons slab slabs ih =>
      unfold setFreelist
      by_cases hin : virtToSlab obj slab = true
      · rw [if_pos hin]
        rfl
      · rw [if_neg hin]
        exact congrArg (slab.page :: ·) ih

/-- Slabs lie in pages of their own, and the counters of free objects drift
apart by `obj_size - 1` with every slab: a new slab adds `obj_size` to its own
and 1 to that of the cache. -/
structure Drift (objSize : Nat) (w : Counted) : Prop where
  pages : (w.state.slabs.map Slab.page).Nodup
  drift : (w.state.slabs.map fun slab => w.counters.slabFree slab.page).sum
    = w.counters.nrFree + w.state.slabs.length * ((objSize : Int) - 1)

/-- The sum of the counters of some slabs, when that of one of them
changes. -/
theorem sum_update {f : Nat → Int} {pages : List Nat} {page : Nat} {v : Int}
    (hin : page ∈ pages) (hnodup : pages.Nodup) :
    (pages.map (Function.update f page v)).sum
      = (pages.map f).sum - f page + v := by
  induction pages with
  | nil => cases hin
  | cons p pages ih =>
      obtain ⟨hout, hnodup⟩ := List.nodup_cons.1 hnodup
      simp only [List.map_cons, List.sum_cons]
      by_cases hp : p = page
      · subst hp
        have hrest : pages.map (Function.update f p v) = pages.map f := by
          apply List.map_congr_left
          intro q hq
          have hne : q ≠ p := fun heq => hout (heq ▸ hq)
          exact Function.update_of_ne hne _ _
        rw [Function.update_self, hrest]
        omega
      · have hin' : page ∈ pages := by
          rcases List.mem_cons.1 hin with heq | hin
          · exact absurd heq.symm hp
          · exact hin
        rw [Function.update_of_ne hp, ih hin' hnodup]
        omega

/-- The sum over the slabs, by their pages. -/
theorem sum_pages (f : Nat → Int) (slabs : List Slab) :
    (slabs.map fun slab => f slab.page).sum
      = ((slabs.map Slab.page).map f).sum := by
  rw [List.map_map]
  rfl

/-- A call that takes or gives back an object changes the counter of the
slab and that of the cache alike. -/
theorem Drift.change (h : Drift objSize w) {slab : Slab} {v : Int}
    (hin : slab ∈ w.state.slabs)
    (hpages : w'.state.slabs.map Slab.page = w.state.slabs.map Slab.page)
    (hslab : w'.counters.slabFree = Function.update w.counters.slabFree
      slab.page (w.counters.slabFree slab.page + v))
    (hcache : w'.counters.nrFree = w.counters.nrFree + v) :
    Drift objSize w' := by
  have hlength : w'.state.slabs.length = w.state.slabs.length := by
    have hmap := congrArg List.length hpages
    rwa [List.length_map, List.length_map] at hmap
  have hdrift := h.drift
  refine ⟨hpages ▸ h.pages, ?_⟩
  rw [sum_pages] at hdrift ⊢
  rw [hpages, hslab, sum_update (List.mem_map_of_mem hin) h.pages, hcache,
    hlength]
  omega

/-- No step takes a slab away, and the counters keep drifting. -/
theorem Drift.step (h : Drift objSize w) (hstep : CountStep objSize w a w') :
    Drift objSize w' := by
  cases hstep with
  | @alloc kmallocOk page r s hpage hcall =>
      unfold kmemCacheAlloc at hcall
      cases htake : takeFirst w.state.mem w.state.slabs with
      | some taken =>
          obtain ⟨obj, slabs⟩ := taken
          rw [htake] at hcall
          cases hcall
          obtain ⟨hpages, slab, hin, hfind⟩ := takeFirst_pages htake
          refine h.change (v := -1) hin hpages ?_ ?_
          · simp only [countAlloc, hfind]
            rfl
          · simp only [countAlloc, hfind]
            rfl
      | none =>
          have hfind := takeFirst_none htake
          rw [htake] at hcall
          cases kmallocOk with
          | false =>
              cases hcall
              simp only [countAlloc, hfind]
              exact ⟨h.pages, h.drift⟩
          | true =>
              cases page with
              | none =>
                  cases hcall
                  simp only [countAlloc, hfind]
                  exact ⟨h.pages, h.drift⟩
              | some page =>
                  have hfresh := hpage page rfl
                  have hout : page ∉ w.state.slabs.map Slab.page := by
                    intro hin
                    obtain ⟨slab, hslab, rfl⟩ := List.mem_map.1 hin
                    have hapart := hfresh.apart slab hslab
                    unfold pageSize at hapart
                    omega
                  cases hcall
                  simp only [countAlloc, hfind]
                  refine ⟨List.nodup_cons.2 ⟨hout, h.pages⟩, ?_⟩
                  have hrest : (w.state.slabs.map fun slab =>
                      Function.update w.counters.slabFree page (objSize : Int)
                        slab.page)
                      = w.state.slabs.map fun slab =>
                        w.counters.slabFree slab.page := by
                    apply List.map_congr_left
                    intro slab hslab
                    apply Function.update_of_ne
                    intro heq
                    exact hout (heq ▸ List.mem_map_of_mem hslab)
                  simp only [if_true, List.map_cons, List.sum_cons,
                    Function.update_self, hrest, h.drift, List.length_cons]
                  push_cast
                  ring
  | @free obj s hlive hcall =>
      unfold kmemCacheFree at hcall
      cases hset : (setFreelist obj w.state.slabs).find? (virtToSlab obj) with
      | none =>
          rw [hset] at hcall
          cases hcall
      | some slab' =>
          rw [hset] at hcall
          cases hcall
          have hpages := setFreelist_pages obj w.state.slabs
          cases hfind : w.state.slabs.find? (virtToSlab obj) with
          | none =>
              simp only [countFree, hfind]
              refine ⟨hpages ▸ h.pages, ?_⟩
              have hlength := congrArg List.length hpages
              rw [List.length_map, List.length_map] at hlength
              have hdrift := h.drift
              rw [sum_pages] at hdrift ⊢
              simp only [hpages, hlength]
              exact hdrift
          | some slab =>
              have hin := List.mem_of_find?_eq_some hfind
              refine h.change (v := 1) hin hpages ?_ ?_
              · simp only [countFree, hfind]
              · simp only [countFree, hfind]
  | write hlive hlo hhi => exact ⟨h.pages, h.drift⟩

/-- A slab once made stays; one is made, or was, when there is memory. -/
theorem CountStep.slabs (hstep : CountStep objSize w a w') :
    w.state.slabs.length ≤ w'.state.slabs.length
      ∧ (Supplied a → w'.state.slabs ≠ [])
      ∧ (¬ Supplied a → w.state.slabs = [] → w'.state.slabs = []) := by
  cases hstep with
  | @alloc kmallocOk page r s hpage hcall =>
      unfold kmemCacheAlloc at hcall
      cases htake : takeFirst w.state.mem w.state.slabs with
      | some taken =>
          obtain ⟨obj, slabs⟩ := taken
          rw [htake] at hcall
          cases hcall
          obtain ⟨hpages, slab, hin, -⟩ := takeFirst_pages htake
          have hlength := congrArg List.length hpages
          rw [List.length_map, List.length_map] at hlength
          have hpos := List.length_pos_of_mem hin
          refine ⟨Nat.le_of_eq hlength.symm, ?_, ?_⟩
          · intro _ hnil
            have hnil' : slabs = [] := hnil
            rw [hnil', List.length_nil] at hlength
            omega
          · intro _ hnil
            rw [hnil] at hin
            cases hin
      | none =>
          rw [htake] at hcall
          cases kmallocOk with
          | false =>
              cases hcall
              exact ⟨Nat.le_refl _, fun h => h.elim, fun _ h => h⟩
          | true =>
              cases page with
              | none =>
                  cases hcall
                  exact ⟨Nat.le_refl _, fun h => h.elim, fun _ h => h⟩
              | some page =>
                  cases hcall
                  exact ⟨Nat.le_succ _, (fun _ h => by cases h),
                    fun h => absurd trivial h⟩
  | @free obj s hlive hcall =>
      unfold kmemCacheFree at hcall
      cases hset : (setFreelist obj w.state.slabs).find? (virtToSlab obj) with
      | none =>
          rw [hset] at hcall
          cases hcall
      | some slab =>
          rw [hset] at hcall
          cases hcall
          have hlength := congrArg List.length
            (setFreelist_pages obj w.state.slabs)
          rw [List.length_map, List.length_map] at hlength
          refine ⟨Nat.le_of_eq hlength.symm, fun h => h.elim, ?_⟩
          intro _ hnil
          show setFreelist obj w.state.slabs = []
          rw [hnil]
          rfl
  | write hlive hlo hhi =>
      exact ⟨Nat.le_refl _, fun h => h.elim, fun _ h => h⟩

/-- There is a slab exactly when some allocation had memory for one. -/
theorem slabs_nil_iff (hrun : Run (CountStep objSize) w₀ as w)
    (h : w₀.state.slabs = []) :
    w.state.slabs = [] ↔ ∀ a ∈ as, ¬ Supplied a := by
  have hkept : ∀ {w₀ w : Counted} {as : List Action},
      Run (CountStep objSize) w₀ as w → w₀.state.slabs ≠ [] →
      w.state.slabs ≠ [] := by
    intro w₀ w as hrun hne
    refine hrun.invariant (I := fun w => w.state.slabs ≠ []) ?_ hne
    intro s l t hs hstep hnil
    have hle := hstep.slabs.1
    rw [hnil, List.length_nil] at hle
    exact hs (List.length_eq_zero_iff.1 (Nat.le_zero.1 hle))
  induction hrun with
  | nil s => exact ⟨fun _ a ha => absurd ha List.not_mem_nil, fun _ => h⟩
  | @cons s t u a as hstep hrest ih =>
      by_cases hsup : Supplied a
      · have hne := hkept hrest (hstep.slabs.2.1 hsup)
        exact ⟨fun hnil => absurd hnil hne,
          fun hall => absurd hsup (hall a List.mem_cons_self)⟩
      · apply (ih (hstep.slabs.2.2 hsup h)).trans
        constructor
        · intro hall b hb
          rcases List.mem_cons.1 hb with rfl | hb
          · exact hsup
          · exact hall b hb
        · intro hall b hb
          exact hall b (List.mem_cons_of_mem a hb)

/-- Nothing was freed where there is no slab: an object is allocated from
one. -/
structure Grounded (w : Counted) : Prop where
  live : w.state.slabs = [] → w.live = []
  freed : w.state.slabs = [] → w.freed = []
  nrFree : w.state.slabs = [] → w.counters.nrFree = 0

theorem Grounded.step (h : Grounded w) (hstep : CountStep objSize w a w') :
    Grounded w' := by
  have hback : w'.state.slabs = [] → w.state.slabs = [] := by
    intro hnil
    have hle := hstep.slabs.1
    rw [hnil, List.length_nil] at hle
    exact List.length_eq_zero_iff.1 (Nat.le_zero.1 hle)
  cases hstep with
  | @alloc kmallocOk page r s hpage hcall =>
      have hzero : s.slabs = [] → r = 0 ∧ countAlloc objSize kmallocOk page
          w.state w.counters = w.counters := by
        intro hnil
        have hnil₀ := hback hnil
        unfold kmemCacheAlloc takeFirst at hcall
        unfold countAlloc
        rw [hnil₀] at hcall ⊢
        cases kmallocOk with
        | false =>
            cases hcall
            exact ⟨rfl, rfl⟩
        | true =>
            cases page with
            | none =>
                cases hcall
                exact ⟨rfl, rfl⟩
            | some page =>
                cases hcall
                cases hnil
      refine ⟨fun hnil => ?_, fun hnil => ?_, fun hnil => ?_⟩
      · show (if r = 0 then w.live else r :: w.live) = []
        rw [if_pos (hzero hnil).1]
        exact h.live (hback hnil)
      · show w.freed.filter _ = []
        rw [h.freed (hback hnil)]
        rfl
      · show (countAlloc objSize kmallocOk page w.state w.counters).nrFree = 0
        rw [(hzero hnil).2]
        exact h.nrFree (hback hnil)
  | free hlive hcall =>
      have hno : ∀ slabs : Prop, slabs → w.state.slabs ≠ [] := by
        intro _ _ hnil
        rw [h.live hnil] at hlive
        cases hlive
      exact ⟨fun hnil => absurd (hback hnil) (hno True trivial),
        fun hnil => absurd (hback hnil) (hno True trivial),
        fun hnil => absurd (hback hnil) (hno True trivial)⟩
  | write hlive hlo hhi => exact ⟨h.live, h.freed, h.nrFree⟩

/-- The counters and lists of a cache agree until it has its first slab, and
never again. -/
theorem slub_accounted_iff (hmin : slubMinObjsize ≤ objSize)
    (hmax : objSize ≤ slubMaxObjsize) (hstart : CountStart w₀)
    (hrun : Run (CountStep objSize) w₀ as w) :
    Accounted objSize w ↔ ∀ a ∈ as, ¬ Supplied a := by
  have hdrift : Drift objSize w := by
    refine hrun.invariant (I := Drift objSize) (fun h hs => h.step hs) ?_
    refine ⟨?_, ?_⟩
    · rw [hstart.slabs]
      exact List.nodup_nil
    · rw [hstart.slabs, hstart.nrFree, List.length_nil]
      simp
  have hground : Grounded w :=
    hrun.invariant (I := Grounded) (fun h hs => h.step hs)
      ⟨fun _ => hstart.live, fun _ => hstart.freed, fun _ => hstart.nrFree⟩
  rw [← slabs_nil_iff hrun hstart.slabs]
  constructor
  · intro hacc
    by_contra hne
    have hsum := hdrift.drift
    rw [← hacc.total] at hsum
    have hpos : 0 < w.state.slabs.length := List.length_pos_iff.2 hne
    have hmin' : (1 : Int) ≤ (objSize : Int) - 1 := by
      unfold slubMinObjsize at hmin
      omega
    have hprod : 0 < (w.state.slabs.length : Int) * ((objSize : Int) - 1) :=
      Int.mul_pos (by omega) (by omega)
    omega
  · intro hnil
    refine ⟨?_, ?_, ?_, ?_⟩
    · rw [hnil]
      exact fun slab hslab => absurd hslab List.not_mem_nil
    · rw [hnil]
      exact fun slab hslab => absurd hslab List.not_mem_nil
    · rw [hnil, hground.nrFree hnil]
      rfl
    · rw [hground.freed hnil]
      exact fun obj hobj => absurd hobj List.not_mem_nil

end Counts

-- ============================================== the first allocation

/-- A cache of objects of 128 bytes that has no slab yet, with its
counters. -/
def countedCache : Counted :=
  ⟨emptyCache, ⟨fun _ => 0, fun _ => 0, 0, 0, 0⟩, []⟩

theorem slub_accounted_iff_noMemory :
    ∃ w, Run (CountStep 128) countedCache [.alloc false none] w
      ∧ Accounted 128 w := by
  have hstep : CountStep 128 countedCache (.alloc false none)
      { countedCache with live := [] } :=
    @CountStep.alloc 128 countedCache false none 0 _ (fun _ h => by cases h) rfl
  refine ⟨_, .single hstep, ?_⟩
  apply (slub_accounted_iff (by decide) (by decide) ⟨rfl, rfl, rfl, rfl⟩
    (.single hstep)).2
  intro a ha
  rw [List.mem_singleton.1 ha]
  exact id

/-- After the first allocation the object that was returned heads the list
of free objects, the list has two objects where the slab counts 128, which is
not how many fit, and the cache counts one. -/
theorem slub_miscounted : ∃ w,
    Run (CountStep 128) countedCache [.alloc true (some 4096)] w
      ∧ w.live = [4096] ∧ (∃ slab, w.state.slabs = [slab]
        ∧ slab.freelist = 4096 ∧ IsChain w.state.mem slab.freelist [4096, 4224]
        ∧ w.counters.slabFree slab.page = 128
        ∧ w.counters.slabObjs slab.page = 128)
      ∧ w.counters.nrFree = 1 ∧ ¬ Accounted 128 w := by
  have hpage : ∀ p, some 4096 = some p → Fresh countedCache.state p := by
    intro p hp
    cases hp
    exact emptyCache_fresh 4096 (by decide)
  have hstep := @CountStep.alloc 128 countedCache true (some 4096) _ _ hpage rfl
  refine ⟨_, .single hstep, rfl, ⟨_, rfl, rfl, ?_, rfl, rfl⟩, rfl, ?_⟩
  · exact ⟨rfl, by decide, rfl, by decide, rfl⟩
  · intro hacc
    have hobjs := hacc.objs _ List.mem_cons_self
    revert hobjs
    decide

end Ucore.Slub
