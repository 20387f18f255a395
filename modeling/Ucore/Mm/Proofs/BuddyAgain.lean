/-
Freeing a block of the buddy allocator a second time.

`buddy_free_pages` takes the `PG_property` of the first page for the sign
that the block is free. A free block keeps that mark as long as no later
release joins it as the buddy: the loop clears the mark of the buddy it
joins, also where the joined block begins there. So the second release is
a no-op exactly as long as no call has joined the block
(`TrackedStep.noOp_iff`).
-/
import Ucore.Mm.Proofs.BuddyCount

namespace Ucore.Buddy

open Ucore.Ring Ucore.Dyadic

section FreeAgain

variable {s s' s₀ : State} {base n order left k x x' k' i z : Nat}
  {t t' : Tracked} {c : Call}

-- ========================================================== one call

/-- The block put together contains the pages it was put together from. -/
theorem mergedBase_mem (base order i : Nat) :
    mergedBase base order i ≤ base
      ∧ base < mergedBase base order i + 2 ^ (order + i) := by
  induction i with
  | zero =>
      have hpos := Nat.two_pow_pos (order + 0)
      exact ⟨Nat.le_refl base, Nat.lt_add_of_pos_right hpos⟩
  | succ i ih =>
      obtain ⟨hlo, hhi⟩ := ih
      have hsize : 2 ^ (order + (i + 1)) = 2 ^ (order + i) * 2 :=
        Nat.pow_succ 2 (order + i)
      rw [hsize, mergedBase]
      have hbuddy : buddyOf (mergedBase base order i) (order + i)
          = partner (mergedBase base order i) (order + i) := rfl
      simp only [hbuddy]
      rcases partner_cases (mergedBase base order i) (order + i) with hc | hc
      · rw [if_pos (by omega)]
        omega
      · rw [if_neg (by omega)]
        omega

/-- No round looks at the page the call was given. -/
theorem buddyOf_mergedBase_ne (base order i : Nat) :
    buddyOf (mergedBase base order i) (order + i) ≠ base := by
  obtain ⟨hlo, hhi⟩ := mergedBase_mem base order i
  have hbuddy : buddyOf (mergedBase base order i) (order + i)
      = partner (mergedBase base order i) (order + i) := rfl
  rw [hbuddy]
  rcases partner_cases (mergedBase base order i) (order + i) with hc | hc
  · omega
  · omega

/-- Round `i` joins the block at `z`. -/
def Joins (s : State) (base order i z : Nat) : Prop :=
  order + i ≤ maxOrder ∧ (∀ j, j ≤ i → Matches s base order j)
    ∧ z = buddyOf (mergedBase base order i) (order + i)

/-- The merging loop, some rounds into a call on the state `s₀`, clears the
marks of the blocks that the rounds left join, and no others. -/
theorem mergeLoop_marks (hleft : left + k = maxOrder + 1)
    (hx : x = mergedBase base order i) (hk : k = order + i)
    (hframe : ∀ z, ¬ (x ≤ z ∧ z < x + 2 ^ k) → s.pages z = s₀.pages z)
    (hprev : ∀ j, j < i → Matches s₀ base order j)
    (hcall : mergeLoop left k x s = some (s', x', k')) :
    s'.nrFree = s.nrFree
      ∧ ∀ z, (s'.pages z).pgProperty = true ↔ (s.pages z).pgProperty = true
        ∧ ∀ j, i ≤ j → ¬ Joins s₀ base order j z := by
  induction left generalizing s x k i with
  | zero =>
      cases hcall
      refine ⟨rfl, fun z => (and_iff_left ?_).symm⟩
      intro j hj hjoin
      have hle := hjoin.1
      omega
  | succ left ih =>
      have hbuddy : buddyOf x k = partner x k := rfl
      have hpos := Nat.two_pow_pos k
      have hout : ¬ (x ≤ partner x k ∧ partner x k < x + 2 ^ k) := by
        rcases partner_cases x k with hc | hc
        · omega
        · omega
      have hmatch : Matches s₀ base order i
          ↔ (s.pages (partner x k)).pgProperty = true
            ∧ (s.pages (partner x k)).property = 2 ^ k := by
        unfold Matches
        rw [← hx, ← hk, hbuddy, hframe _ hout]
      unfold mergeLoop at hcall
      simp only [hbuddy] at hcall
      split at hcall
      case isTrue _ => cases hcall
      case isFalse _ =>
      split at hcall
      case isFalse hno =>
        cases hcall
        refine ⟨rfl, fun z => (and_iff_left ?_).symm⟩
        intro j hj hjoin
        exact hno (hmatch.1 (hjoin.2.1 i hj))
      case isTrue hmark =>
        have hall : ∀ j, j < i + 1 → Matches s₀ base order j := by
          intro j hj
          rcases Nat.lt_or_eq_of_le (Nat.le_of_lt_succ hj) with hlt | rfl
          · exact hprev j hlt
          · exact hmatch.2 hmark
        have hbase' : (if x < partner x k then x else partner x k)
            = mergedBase base order (i + 1) := by
          show _ = if _ < _ then _ else _
          rw [← hx, ← hk, hbuddy]
        have hframe' : ∀ z, ¬ ((if x < partner x k then x else partner x k) ≤ z
            ∧ z < (if x < partner x k then x else partner x k) + 2 ^ (k + 1)) →
            (({ s with links := listDel s.links (.pageLink (partner x k)) } :
              State).setPgProperty (partner x k) false).pages z
              = s₀.pages z := by
          intro z hz
          rw [Nat.pow_succ] at hz
          have hne : z ≠ partner x k ∧ ¬ (x ≤ z ∧ z < x + 2 ^ k) := by
            rcases partner_cases x k with hc | hc
            · rw [if_pos (by omega)] at hz
              omega
            · rw [if_neg (by omega)] at hz
              omega
          simp only [State.setPgProperty, State.setPage,
            Function.update_of_ne hne.1]
          exact hframe z hne.2
        obtain ⟨hnr, hmarks⟩ := ih (i := i + 1) (by omega) hbase' (by omega)
          hframe' hall hcall
        refine ⟨hnr, fun z => ?_⟩
        have hjoin : Joins s₀ base order i z ↔ z = partner x k := by
          unfold Joins
          rw [← hx, ← hk, hbuddy]
          exact ⟨fun h => h.2.2,
            fun h => ⟨by omega, fun j hj => hall j (by omega), h⟩⟩
        have hcut : (∀ j, i ≤ j → ¬ Joins s₀ base order j z)
            ↔ z ≠ partner x k ∧ ∀ j, i + 1 ≤ j → ¬ Joins s₀ base order j z := by
          constructor
          · intro h
            exact ⟨fun heq => h i (Nat.le_refl i) (hjoin.2 heq),
              fun j hj => h j (by omega)⟩
          · intro h j hj hj'
            rcases Nat.lt_or_eq_of_le hj with hlt | rfl
            · exact h.2 j hlt hj'
            · exact h.1 (hjoin.1 hj')
        rw [hmarks z, hcut]
        by_cases hz : z = partner x k
        · subst hz
          simp [State.setPgProperty, State.setPage]
        · simp [State.setPgProperty, State.setPage, hz]

/-- What a release does to the marks, and to one counter. -/
theorem buddyFreePages_marks (hclear : (s.pages base).pgProperty = false)
    (hcall : buddyFreePages base n s = some s') :
    (∃ k, s'.nrFree k = s.nrFree k + 1)
      ∧ ∀ z, (s'.pages z).pgProperty = true
        ↔ (z = base ∨ (s.pages z).pgProperty = true)
          ∧ ¬ Absorbs s base n z := by
  unfold buddyFreePages at hcall
  simp only [hclear, Bool.false_eq_true, if_false] at hcall
  split at hcall
  case h_1 _ => cases hcall
  case h_2 sm base' order' hloop =>
    split at hcall
    case isTrue _ => cases hcall
    case isFalse hle =>
      cases hcall
      have hpos := Nat.two_pow_pos (orderOf n)
      have horder : orderOf n ≤ maxOrder := by
        by_contra hgt
        have hleft : maxOrder + 1 - orderOf n = 0 := by omega
        rw [hleft, mergeLoop, Option.some.injEq, Prod.mk.injEq,
          Prod.mk.injEq] at hloop
        omega
      have hframe : ∀ z, ¬ (base ≤ z ∧ z < base + 2 ^ orderOf n) →
          ((s.setProperty base (2 ^ orderOf n)).setPgProperty base
            true).pages z = s.pages z := by
        intro z hz
        have hne : z ≠ base := by
          intro heq
          exact hz (by omega)
        simp [State.setPgProperty, State.setProperty, State.setPage, hne]
      have hx : base = mergedBase base (orderOf n) 0 := rfl
      have hk : orderOf n = orderOf n + 0 := rfl
      obtain ⟨hnr, hmarks⟩ := mergeLoop_marks (by omega) hx hk hframe
        (fun j hj => absurd hj (Nat.not_lt_zero j)) hloop
      have habsorbs : ∀ z, Absorbs s base n z
          ↔ ∃ i, Joins s base (orderOf n) i z :=
        fun z => and_iff_right hclear
      refine ⟨⟨order', ?_⟩, fun z => ?_⟩
      · simp only [State.addFree, Function.update_self, hnr]
        rfl
      · show (sm.pages z).pgProperty = true ↔ _
        rw [hmarks z, habsorbs z, not_exists]
        by_cases hz : z = base
        · simp only [State.setPgProperty, State.setPage, hz,
            Function.update_self, true_or, true_and]
          exact ⟨fun h i => h i (Nat.zero_le i), fun h i _ => h i⟩
        · simp only [State.setPgProperty, State.setProperty, State.setPage, hz,
            Function.update_of_ne, ne_eq, not_false_eq_true, false_or]
          exact and_congr_right fun _ =>
            ⟨fun h i => h i (Nat.zero_le i), fun h i _ => h i⟩

/-- No release joins the block it is given. -/
theorem not_absorbs_self : ¬ Absorbs s base n base := by
  intro h
  obtain ⟨-, i, -, -, heq⟩ := h
  exact buddyOf_mergedBase_ne base (orderOf n) i heq.symm

/-- A release changes nothing when the first page is marked, and otherwise
counts one more block. -/
theorem buddyFreePages_eq_self :
    buddyFreePages base n s = some s ↔ (s.pages base).pgProperty = true := by
  constructor
  · intro hcall
    by_contra hmark
    rw [Bool.not_eq_true] at hmark
    obtain ⟨⟨k, hk⟩, -⟩ := buddyFreePages_marks hmark hcall
    have hone : (1 : BitVec 32) ≠ 0 := by decide
    bv_omega
  · intro hmark
    simp only [buddyFreePages, hmark, if_true]

theorem splitLoop_marks (hz : (s.pages z).pgProperty = true) :
    ((splitLoop order x k s).pages z).pgProperty = true := by
  induction k generalizing s with
  | zero => exact hz
  | succ k ih =>
      unfold splitLoop
      split
      case isFalse _ => exact hz
      case isTrue _ =>
        apply ih
        by_cases heq : z = x + 2 ^ k
        · simp [State.addFree, State.setPgProperty, State.setPage, heq]
        · simp [State.addFree, State.setPgProperty, State.setProperty,
            State.setPage, heq, hz]

/-- `buddy_alloc_pages` clears the mark of the page it returns, and no
other. -/
theorem allocLoop_marks {r : Option Nat}
    (hcall : allocLoop order n left k s = some (r, s')) (hr : r ≠ some z)
    (hz : (s.pages z).pgProperty = true) :
    (s'.pages z).pgProperty = true := by
  induction left generalizing k with
  | zero =>
      cases hcall
      exact hz
  | succ left ih =>
      unfold allocLoop at hcall
      split at hcall
      case isTrue _ => exact ih hcall
      case isFalse _ =>
        simp only at hcall
        split at hcall
        case h_1 _ => cases hcall
        case h_2 page _ =>
          cases hcall
          have hne : z ≠ page := fun heq => hr (congrArg some heq.symm)
          simp only [State.setProperty, State.setPgProperty, State.setPage,
            Function.update_of_ne hne]
          exact splitLoop_marks hz

theorem buddyAllocPages_marks {r : Option Nat}
    (hcall : buddyAllocPages n s = some (r, s')) (hr : r ≠ some z)
    (hz : (s.pages z).pgProperty = true) :
    (s'.pages z).pgProperty = true := by
  unfold buddyAllocPages at hcall
  simp only at hcall
  split at hcall
  case isTrue _ =>
    cases hcall
    exact hz
  case isFalse _ => exact allocLoop_marks hcall hr hz

-- ============================================================== runs

/-- Requests are for a page at least. -/
structure Positive (t : Tracked) : Prop where
  held : ∀ b m, t.world.held b = some m → 0 < m
  freed : ∀ b m, t.freed b = some m → 0 < m

/-- The freed blocks are marked. -/
theorem againIsNoOp_iff : AgainIsNoOp t
    ↔ ∀ b m, t.freed b = some m →
      (t.world.state.pages b).pgProperty = true := by
  simp only [AgainIsNoOp, buddyFreePages_eq_self]

theorem reuse_eq_some {freed : Nat → Option Nat} {r : Option Nat} {b m : Nat}
    (h : reuse freed n r b = some m) : freed b = some m
      ∧ ∀ p, r = some p → ¬ (b < p + n ∧ p < b + m) := by
  cases r with
  | none => exact ⟨h, by simp⟩
  | some p =>
      obtain ⟨hb, hout⟩ := Option.filter_eq_some_iff.1 h
      refine ⟨hb, fun q hq => ?_⟩
      cases hq
      rw [Bool.not_eq_true', decide_eq_false_iff_not] at hout
      exact hout

/-- An entry after one was stored. -/
theorem update_cases {f : Nat → Option Nat} {v : Option Nat} {b m : Nat}
    (h : Function.update f base v b = some m) :
    b = base ∧ v = some m ∨ b ≠ base ∧ f b = some m := by
  by_cases hb : b = base
  · rw [hb, Function.update_self] at h
    exact Or.inl ⟨hb, h⟩
  · rw [Function.update_of_ne hb] at h
    exact Or.inr ⟨hb, h⟩

theorem Positive.step (h : Positive t) (hstep : TrackedStep t c t') :
    Positive t' := by
  cases hstep with
  | again hfreed hcall => exact ⟨h.held, h.freed⟩
  | @alloc n r w' hstep =>
      refine ⟨?_, fun b m hb => h.freed b m (reuse_eq_some hb).1⟩
      cases hstep with
      | alloc hpos hmax hcall =>
          intro b m hb
          cases r with
          | none => exact h.held b m hb
          | some p =>
              rcases update_cases hb with ⟨-, heq⟩ | ⟨-, hb⟩
              · cases heq
                exact hpos
              · exact h.held b m hb
  | @free base n w' hstep =>
      cases hstep with
      | free hheld hcall =>
          constructor
          · intro b m hb
            rcases update_cases hb with ⟨-, heq⟩ | ⟨-, hb⟩
            · cases heq
            · exact h.held b m hb
          · intro b m hb
            rcases update_cases hb with ⟨-, heq⟩ | ⟨-, hb⟩
            · cases heq
              exact h.held base n hheld
            · exact h.freed b m hb

/-- A release that joins no freed block leaves all freed blocks marked, the
one it is given among them. -/
theorem Step.free_noOp_iff {w' : World} (h : AgainIsNoOp t)
    (hstep : Step t.world (.free base n) w') :
    AgainIsNoOp { world := w', freed := Function.update t.freed base (some n) }
      ↔ Spares t (.free base n) := by
  rw [againIsNoOp_iff] at h ⊢
  cases hstep with
  | @free _ _ s' hheld hcall =>
      by_cases hmark : (t.world.state.pages base).pgProperty = true
      · -- the call takes the block for free already
        obtain rfl : t.world.state = s' :=
          Option.some.inj ((buddyFreePages_eq_self.2 hmark).symm.trans hcall)
        constructor
        · intro _ buddy habs
          have hclear := habs.1
          rw [hmark] at hclear
          cases hclear
        · intro _ b m hb
          rcases update_cases hb with ⟨rfl, -⟩ | ⟨-, hb⟩
          · exact hmark
          · exact h b m hb
      · rw [Bool.not_eq_true] at hmark
        obtain ⟨-, hmarks⟩ := buddyFreePages_marks hmark hcall
        constructor
        · intro hall buddy habs
          by_contra hfreed
          obtain ⟨m, hm⟩ := Option.ne_none_iff_exists'.1 hfreed
          have hne : buddy ≠ base := by
            intro heq
            rw [heq] at habs
            exact not_absorbs_self habs
          have hlisted : Function.update t.freed base (some n) buddy
              = some m := by
            rw [Function.update_of_ne hne]
            exact hm
          exact ((hmarks buddy).1 (hall buddy m hlisted)).2 habs
        · intro hspares b m hb
          rcases update_cases hb with ⟨rfl, -⟩ | ⟨-, hb⟩
          · exact (hmarks b).2 ⟨Or.inl rfl, not_absorbs_self⟩
          · refine (hmarks b).2 ⟨Or.inr (h b m hb), fun habs => ?_⟩
            rw [hspares b habs] at hb
            cases hb

/-- A call keeps the freed blocks such that freeing them again changes
nothing, exactly when it joins none of them. -/
theorem TrackedStep.noOp_iff (hpos : Positive t) (h : AgainIsNoOp t)
    (hstep : TrackedStep t c t') : AgainIsNoOp t' ↔ Spares t c := by
  cases hstep with
  | free hstep => exact hstep.free_noOp_iff h
  | @again base n s' hfreed hcall =>
      have hsame := h base n hfreed
      rw [hcall, Option.some.injEq] at hsame
      subst hsame
      exact iff_of_true h trivial
  | @alloc n r w' hstep =>
      refine iff_of_true ?_ trivial
      rw [againIsNoOp_iff] at h ⊢
      cases hstep with
      | alloc hn hmax hcall =>
          intro b m hb
          obtain ⟨hfreed, hout⟩ := reuse_eq_some hb
          have hm := hpos.freed b m hfreed
          apply buddyAllocPages_marks hcall _ (h b m hfreed)
          intro hr
          have hapart := hout b hr
          omega

/-- Freeing a freed block again changes nothing in every run in which no
release joins a freed block, and the first release that does ends that. -/
theorem buddy_free_again {t₀ : Tracked} {cs : List Call}
    (hstart : Handed base n t₀.world) (hnone : ∀ b, t₀.freed b = none)
    (hrun : Run SparingStep t₀ cs t) :
    AgainIsNoOp t ∧ ∀ c t', TrackedStep t c t' →
      (AgainIsNoOp t' ↔ Spares t c) := by
  have hinit : Positive t₀ ∧ AgainIsNoOp t₀ := by
    refine ⟨⟨fun b m hb => ?_, fun b m hb => ?_⟩, fun b m hb => ?_⟩
    · rw [hstart.held b] at hb
      cases hb
    · rw [hnone b] at hb
      cases hb
    · rw [hnone b] at hb
      cases hb
  obtain ⟨hpos, hnoop⟩ := hrun.invariant
    (I := fun t => Positive t ∧ AgainIsNoOp t)
    (fun h hs => ⟨h.1.step hs.1, (hs.1.noOp_iff h.1 h.2).2 hs.2⟩) hinit
  exact ⟨hnoop, fun c t' hstep => hstep.noOp_iff hpos hnoop⟩

/-- The pages of `alignedWorld`, none of them freed yet. -/
def alignedTracked : Tracked where
  world := alignedWorld
  freed _ := none

/-- Two allocations and a release on `alignedWorld`, with the freed
blocks. -/
theorem alignedTracked_steps {w₁ w₂ w₃ : World}
    (h₁ : Step alignedWorld (.alloc 1 (some 8)) w₁)
    (h₂ : Step w₁ (.alloc 1 (some 9)) w₂) (h₃ : Step w₂ (.free 9 1) w₃) :
    ∃ t₁ t₂ t₃ : Tracked,
      TrackedStep alignedTracked (.alloc 1 (some 8)) t₁
        ∧ TrackedStep t₁ (.alloc 1 (some 9)) t₂
        ∧ TrackedStep t₂ (.free 9 1) t₃
        ∧ t₂.world = w₂ ∧ t₃.world = w₃ ∧ t₃.freed 9 = some 1 := by
  obtain ⟨f₁, hf₁⟩ : ∃ f, f = reuse alignedTracked.freed 1 (some 8) :=
    ⟨_, rfl⟩
  have s₁ : TrackedStep alignedTracked (.alloc 1 (some 8)) ⟨w₁, f₁⟩ := by
    rw [hf₁]
    exact .alloc h₁
  have s₂ : TrackedStep ⟨w₁, f₁⟩ (.alloc 1 (some 9))
      ⟨w₂, reuse f₁ 1 (some 9)⟩ := .alloc h₂
  have s₃ : TrackedStep ⟨w₂, reuse f₁ 1 (some 9)⟩ (.free 9 1)
      ⟨w₃, Function.update (reuse f₁ 1 (some 9)) 9 (some 1)⟩ := .free h₃
  exact ⟨_, _, _, s₁, s₂, s₃, rfl, rfl, rfl⟩

/-- Two pages are taken, and the second one is freed: freeing it again
changes nothing. -/
theorem buddy_free_again_four : ∃ t : Tracked,
    Run SparingStep alignedTracked
        [.alloc 1 (some 8), .alloc 1 (some 9), .free 9 1] t
      ∧ t.freed 9 = some 1
      ∧ buddyFreePages 9 1 t.world.state = some t.world.state := by
  obtain ⟨w₁, w₂, w₃, h₁, h₂, h₃, -, hmark, hord⟩ := alignedWorld_run
  obtain ⟨t₁, t₂, t₃, s₁, s₂, s₃, htwo, -, hfreed⟩ :=
    alignedTracked_steps (call_step h₁) (call_step h₂) (call_step h₃)
  have hspares : Spares t₂ (.free 9 1) := by
    intro buddy habs
    obtain ⟨-, i, -, hmatch, -⟩ := habs
    have hzero := (hmatch 0 (Nat.zero_le i)).1
    rw [htwo, hord, show mergedBase 9 0 0 = 9 from rfl, hmark] at hzero
    cases hzero
  have hrun : Run SparingStep alignedTracked
      [.alloc 1 (some 8), .alloc 1 (some 9), .free 9 1] t₃ :=
    .cons ⟨s₁, trivial⟩ (.cons ⟨s₂, trivial⟩ (.single ⟨s₃, hspares⟩))
  have hhanded : Handed 8 4 alignedTracked.world := alignedWorld_clear.handed
  exact ⟨t₃, hrun, hfreed,
    (buddy_free_again hhanded (fun _ => rfl) hrun).1 9 1 hfreed⟩

/-- Once its buddy is freed too, freeing a block again is a release of its
own. -/
theorem buddy_free_again_counts :
    ¬ ∀ (base n : Nat) (t₀ t : Tracked) (cs : List Call),
      HandedClear base n t₀.world → (∀ b, t₀.freed b = none) →
      Run TrackedStep t₀ cs t → AgainIsNoOp t := by
  intro hall
  have hclear : (calls alignedWorld [.alloc 1 (some 8), .alloc 1 (some 9),
      .free 9 1, .free 8 1]).map (fun w => (w.state.pages 9).pgProperty)
      = some false := by
    decide +kernel
  obtain ⟨w₄, hcalls, hmark⟩ := Option.map_eq_some_iff.1 hclear
  have hsteps := calls_run hcalls
  cases hsteps with
  | cons h₁ hsteps =>
  cases hsteps with
  | cons h₂ hsteps =>
  cases hsteps with
  | cons h₃ hsteps =>
  cases hsteps with
  | cons h₄ hsteps =>
  cases hsteps
  obtain ⟨t₁, t₂, t₃, s₁, s₂, s₃, -, hthree, hfreed⟩ :=
    alignedTracked_steps h₁ h₂ h₃
  rw [← hthree] at h₄
  have s₄ : TrackedStep t₃ (.free 8 1)
      ⟨w₄, Function.update t₃.freed 8 (some 1)⟩ := .free h₄
  have hrun : Run TrackedStep alignedTracked [.alloc 1 (some 8),
      .alloc 1 (some 9), .free 9 1, .free 8 1]
      ⟨w₄, Function.update t₃.freed 8 (some 1)⟩ :=
    .cons s₁ (.cons s₂ (.cons s₃ (.single s₄)))
  have hnoop := hall 8 4 alignedTracked _ _ alignedWorld_clear
    (fun _ => rfl) hrun
  have hlisted : Function.update t₃.freed 8 (some 1) 9 = some 1 := by
    rw [Function.update_of_ne (by decide)]
    exact hfreed
  have hmarked := againIsNoOp_iff.1 hnoop 9 1 hlisted
  rw [hmark] at hmarked
  cases hmarked

end FreeAgain

end Ucore.Buddy
