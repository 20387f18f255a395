/-
Every step of a philosopher keeps the invariant of the table, and some
philosopher can always take one while any has not quit.
-/
import Ucore.Sync.Table

namespace Ucore.Sync

-- =================================================== the round table

@[simp] theorem left_right (i : Phi) : left (right i) = i := by
  revert i
  decide

@[simp] theorem right_left (i : Phi) : right (left i) = i := by
  revert i
  decide

theorem right_ne (i : Phi) : right i ≠ i := by
  revert i
  decide

namespace Pc

variable {i : Phi} {p q w : Pc} {r : PhiSem} {st : PhiState}

theorem waitsOn_of_inside (h : p.inside = true) : p.waitsOn i = none := by
  cases p <;> first | rfl | cases h

theorem inside_of_serves {t : Phi} (h : p.serves i = some t) :
    p.inside = true := by
  cases p <;> first | rfl | cases h

theorem inside_of_toTest {t : Phi} (h : t ∈ p.toTest i) :
    p.inside = true := by
  cases p <;> first | rfl | cases h

/-- What a local move leaves as it was. -/
structure Same (i : Phi) (p q : Pc) : Prop where
  waitsOn : q.waitsOn i = p.waitsOn i
  inside : q.inside = p.inside
  seated : q.seated = p.seated
  serves : q.serves i = p.serves i
  fits : ∀ st, p.Fits st → q.Fits st

theorem Local.same (h : Local p q) : Same i p q := by
  cases h <;> exact ⟨rfl, rfl, rfl, rfl, fun _ hst => hst⟩

theorem Local.toTest (h : Local p q) :
    p.toTest i = [] ∧ ∀ c k, q ≠ .test c k := by
  cases h <;> exact ⟨rfl, fun _ _ => by rintro ⟨⟩⟩

/-- Where a `down` is called from. -/
structure Before (i : Phi) (p : Pc) : Prop where
  waitsOn : p.waitsOn i = none
  inside : p.inside = false
  serves : p.serves i = none
  toTest : p.toTest i = []

theorem Downs.before (h : Downs i p r w q) : Before i p := by
  cases h <;> exact ⟨rfl, rfl, rfl, rfl⟩

/-- In `schedule`. -/
structure During (i : Phi) (p : Pc) (r : PhiSem) (w : Pc) : Prop where
  waitsOn : w.waitsOn i = some r
  inside : w.inside = false
  seated : w.seated = p.seated
  serves : w.serves i = none
  toTest : w.toTest i = []
  fits : ∀ st, p.Fits st → w.Fits st
  notTest : ∀ c k, w ≠ .test c k

theorem Downs.during (h : Downs i p r w q) : During i p r w := by
  cases h <;> exact ⟨rfl, rfl, rfl, rfl, rfl, fun _ hst => hst,
    fun _ _ => by rintro ⟨⟩⟩

/-- After a `down`. -/
structure After (i : Phi) (p : Pc) (q : Pc) : Prop where
  waitsOn : q.waitsOn i = none
  serves : q.serves i = none
  toTest : q.toTest i = []
  notTest : ∀ c k, q ≠ .test c k

theorem Downs.after (h : Downs i p r w q) : After i p q := by
  cases h <;> exact ⟨rfl, rfl, rfl, fun _ _ => by rintro ⟨⟩⟩

/-- Where `up(&mutex)` is called from, and where it goes on. -/
structure Leaves (i : Phi) (p q : Pc) : Prop where
  inside : p.inside = true
  outside : q.inside = false
  waitsOn : q.waitsOn i = none
  seated : q.seated = p.seated
  serves : q.serves i = p.serves i
  fits : ∀ st, p.Fits st → q.Fits st
  toTest : p.toTest i = []
  notTest : ∀ c k, q ≠ .test c k

theorem Unlocks.leaves (h : Unlocks p q) : Leaves i p q := by
  cases h <;> exact ⟨rfl, rfl, rfl, rfl, rfl, fun _ hst => hst, rfl,
    fun _ _ => by rintro ⟨⟩⟩

theorem inside_ret (c : Caller) : c.ret.inside = true := by
  cases c <;> rfl

theorem seated_ret (c : Caller) : c.ret.seated = false := by
  cases c <;> rfl

theorem serves_ret (c : Caller) : c.ret.serves i = none := by
  cases c <;> rfl

theorem fits_ret {c : Caller} {k : TestPc} (h : (Pc.test c k).Fits st) :
    c.ret.Fits st := by
  cases c <;> exact h

/-- `phi_test_sema` is called for both neighbours in turn. -/
theorem toTest_ret {c : Caller} {k : TestPc} {t : Phi}
    (h : t ∈ (Pc.test c k).toTest i) (ht : t ≠ c.arg i) :
    t ∈ c.ret.toTest i := by
  cases c with
  | take => cases k <;> simp_all [toTest, Caller.arg]
  | putLeft => cases k <;> simp_all [toTest, Caller.arg, Caller.ret]
  | putRight => cases k <;> simp_all [toTest, Caller.arg]

theorem toTest_ret_of_up {c : Caller} {t : Phi}
    (h : t ∈ (Pc.test c .up).toTest i) : t ∈ c.ret.toTest i := by
  cases c with
  | take => cases h
  | putLeft => exact h
  | putRight => cases h

/-- Whoever is hungry may be seated. -/
theorem fits_eating (h : p.Fits .hungry) : p.Fits .eating := by
  cases p with
  | test c k =>
      cases c with
      | take => rintro ⟨⟩
      | putLeft => cases h
      | putRight => cases h
  | takeUp => rintro ⟨⟩
  | selfDown => rintro ⟨⟩
  | selfWait => rintro ⟨⟩
  | _ => cases h

theorem toTest_up {c : Caller} {t : Phi}
    (h : t ∈ (Pc.test c .store).toTest i) (ht : t ≠ c.arg i) :
    t ∈ (Pc.test c .up).toTest i := by
  cases c with
  | take => exact absurd (List.mem_singleton.1 h) ht
  | putLeft =>
      rcases List.mem_cons.1 h with heq | hmem
      · exact absurd heq ht
      · exact hmem
  | putRight => exact absurd (List.mem_singleton.1 h) ht

theorem tested_ret {c c' : Caller} {k : TestPc} (h : c.ret = .test c' k) :
    k = .self := by
  cases c with
  | take => cases h
  | putLeft => cases h; rfl
  | putRight => cases h

end Pc

namespace Table

variable {T T' : Table} {b : Sema PhiSem Phi} {i j t : Phi} {p q w : Pc}
  {r : PhiSem} {c : Caller} {k : TestPc} {st : PhiState}

-- ================================================= looking at a step

@[simp] theorem goto_sem : (T.goto b i p).sem = b := rfl

@[simp] theorem goto_pc : (T.goto b i p).pc = Function.update T.pc i p := rfl

@[simp] theorem store_sem : (T.store t st i p).sem = T.sem := rfl

@[simp] theorem store_pc :
    (T.store t st i p).pc = Function.update T.pc i p := rfl

/-- Where the threads wait, after one moved. -/
theorem waitsOn_update :
    (fun j => (Function.update T.pc i p j).waitsOn j)
      = Function.update (fun j => (T.pc j).waitsOn j) i (p.waitsOn i) := by
  funext j
  rw [Function.update_apply, Function.update_apply]
  split
  case isTrue hj => rw [hj]
  case isFalse => rfl

theorem waitsOn_update_same (h : p.waitsOn i = (T.pc i).waitsOn i) :
    (fun j => (Function.update T.pc i p j).waitsOn j)
      = fun j => (T.pc j).waitsOn j := by
  rw [waitsOn_update, h]
  exact Function.update_eq_self i fun j => (T.pc j).waitsOn j

theorem Inv.idle (h : T.Inv) (ht : (T.pc i).waitsOn i = none) :
    T.sem.Idle i :=
  h.places.idle ht

/-- Only one thread is inside. -/
theorem Inv.alone (h : T.Inv) (hi : (T.pc i).inside = true) (hj : j ≠ i) :
    (T.pc j).inside = false := by
  cases hin : (T.pc j).inside with
  | false => rfl
  | true =>
      rcases h.mutex with ⟨-, hnone⟩ | ⟨-, x, -, hone⟩
      · exact absurd (Or.inl hi) (hnone i)
      · exact absurd ((hone j (Or.inl hin)).trans (hone i (Or.inl hi)).symm) hj

theorem served_congr {pc : Phi → Pc} {sem : Sema PhiSem Phi}
    {state : Phi → PhiState}
    (hpc : ∀ j, (pc j).serves j = (T.pc j).serves j) :
    Served ⟨sem, state, pc⟩ t ↔ T.Served t :=
  exists_congr fun j => by rw [hpc j]

/-- Nobody else owes an `up`. -/
theorem Inv.served_iff (h : T.Inv) (hi : (T.pc i).inside = true) :
    T.Served t ↔ (T.pc i).serves i = some t := by
  constructor
  · rintro ⟨j, hj⟩
    by_cases hji : j = i
    · rw [hji] at hj
      exact hj
    · have hout := h.alone hi hji
      rw [Pc.inside_of_serves hj] at hout
      cases hout
  · exact fun hs => ⟨i, hs⟩

theorem mutex_congr (h : T.Mutex)
    (hvalue : T'.sem.value .mutex = T.sem.value .mutex)
    (hholder : ∀ j, T'.Holder j ↔ T.Holder j) : T'.Mutex := by
  unfold Mutex
  rw [hvalue]
  simp only [hholder]
  exact h

theorem holder_congr (hin : p.inside = (T.pc i).inside)
    (hgranted : ∀ j, b.granted j = some .mutex
      ↔ T.sem.granted j = some .mutex) (j : Phi) :
    (T.goto b i p).Holder j ↔ T.Holder j := by
  refine or_congr ?_ (hgranted j)
  rw [goto_pc, Function.update_apply]
  split
  case isTrue hj => rw [hj, hin]
  case isFalse => exact Iff.rfl

/-- A step that stores nothing in `state_sema`. -/
theorem Inv.goto (h : T.Inv) (htight : b.Tight)
    (hplaces : b.Places fun j => (Function.update T.pc i p j).waitsOn j)
    (hmutex : (T.goto b i p).Mutex)
    (hfits : p.Fits (T.state i))
    (hmeals : ∀ t, (T.goto b i p).meals t = T.meals t)
    (htested : ∀ c k, p = .test c k → T.Tested (c.arg i) k)
    (hattended : ∀ t ∈ (T.pc i).toTest i, t ∉ p.toTest i →
      T.state t = .hungry →
      T.state (left t) = .eating ∨ T.state (right t) = .eating) :
    (T.goto b i p).Inv := by
  refine ⟨htight, hplaces, hmutex, fun j => ?_, fun t => ?_, h.apart,
    fun j c k hj => ?_, fun t ht => ?_⟩
  · rw [goto_pc, Function.update_apply]
    split
    case isTrue hj => rw [hj]; exact hfits
    case isFalse => exact h.fits j
  · rw [hmeals]
    exact h.meals t
  · rw [goto_pc, Function.update_apply] at hj
    split at hj
    case isTrue heq => rw [heq]; exact htested c k hj
    case isFalse => exact h.tested j c k hj
  · rcases h.attended t ht with hl | hr | ⟨j, hj⟩
    · exact Or.inl hl
    · exact Or.inr (Or.inl hr)
    · by_cases hji : j = i
      · rw [hji] at hj
        by_cases hp : t ∈ p.toTest i
        · exact Or.inr (Or.inr ⟨i, by simpa using hp⟩)
        · rcases hattended t hj hp ht with hl | hr
          · exact Or.inl hl
          · exact Or.inr (Or.inl hr)
      · exact Or.inr (Or.inr ⟨j, by simpa [hji] using hj⟩)

/-- What is around after a step that serves nobody. -/
theorem meals_goto (hserves : p.serves i = (T.pc i).serves i)
    (hself : units b i + p.seated.toNat
      = units T.sem i + (T.pc i).seated.toNat)
    (hother : ∀ t, t ≠ i → units b t = units T.sem t) (t : Phi) :
    (T.goto b i p).meals t = T.meals t := by
  have hserved : (T.goto b i p).Served t ↔ T.Served t := by
    refine served_congr fun j => ?_
    rw [Function.update_apply]
    split
    case isTrue hj => rw [hj, hserves]
    case isFalse => rfl
  rw [meals, meals, decide_eq_decide.2 hserved, goto_sem, goto_pc,
    Function.update_apply]
  split
  case isTrue hti =>
      rw [← hti] at hself
      omega
  case isFalse hti => rw [hother t hti]

-- ========================================================= the steps

theorem Inv.step_idle (h : T.Inv) (hp : Pc.Local (T.pc i) p) :
    (T.goto T.sem i p).Inv := by
  have hsame := hp.same (i := i)
  obtain ⟨hnil, hnot⟩ := hp.toTest (i := i)
  refine h.goto h.tight ?_ ?_ (hsame.fits _ (h.fits i)) (fun t => ?_)
    (fun c k hck => absurd hck (hnot c k)) (fun t ht => ?_)
  · rw [waitsOn_update_same hsame.waitsOn]
    exact h.places
  · exact mutex_congr h.mutex rfl
      (holder_congr hsame.inside fun _ => Iff.rfl)
  · refine meals_goto hsame.serves ?_ (fun _ _ => rfl) t
    rw [hsame.seated]
  · rw [hnil] at ht
    cases ht

/-- The units of `s[t]` that other operations leave alone. -/
theorem units_congr {a : Sema PhiSem Phi}
    (hvalue : b.value (.s t) = a.value (.s t))
    (hgranted : b.granted t = some (.s t) ↔ a.granted t = some (.s t)) :
    units b t = units a t := by
  have hbeq : (b.granted t == some (.s t)) = (a.granted t == some (.s t)) := by
    rw [Bool.eq_iff_iff, beq_iff_eq, beq_iff_eq]
    exact hgranted
  rw [units, units, hvalue, hbeq]

/-- What a `down` that got its unit of `r` changes. -/
structure Got (T : Table) (b : Sema PhiSem Phi) (i : Phi) (r : PhiSem) :
    Prop where
  tight : b.Tight
  value : ∀ x, x ≠ r → b.value x = T.sem.value x
  granted : ∀ j x, x ≠ r → (b.granted j = some x ↔ T.sem.granted j = some x)
  others : ∀ j, j ≠ i → b.granted j = T.sem.granted j
  mutex : r = .mutex → b.value .mutex = 0 ∧ ∀ j, j ≠ i → ¬ T.Holder j
  unit : r = .s i → units b i + 1 = units T.sem i

/-- The critical section is entered. -/
theorem mutex_enter (hvalue : b.value .mutex = 0)
    (halone : ∀ j, j ≠ i → ¬ T.Holder j)
    (hothers : ∀ j, j ≠ i → b.granted j = T.sem.granted j)
    (hq : q.inside = true) : (T.goto b i q).Mutex := by
  refine Or.inr ⟨hvalue, i, Or.inl (by simpa using hq), fun j hj => ?_⟩
  by_contra hji
  refine halone j hji ?_
  rcases hj with hj | hj
  · rw [goto_pc, Function.update_of_ne hji] at hj
    exact Or.inl hj
  · rw [goto_sem, hothers j hji] at hj
    exact Or.inr hj

/-- With its unit, a thread enters the critical section or sits down. -/
theorem Inv.step_got (h : T.Inv) (hgot : T.Got b i r)
    (hplaces : b.Places fun j => (Function.update T.pc i q j).waitsOn j)
    (hd : Pc.Downs i p r w q) (hpc : T.pc i = p ∨ T.pc i = w) :
    (T.goto b i q).Inv := by
  have hbefore := hd.before
  have hduring := hd.during
  have hafter := hd.after
  have hserves : (T.pc i).serves i = none := by
    rcases hpc with hpc | hpc
    · rw [hpc, hbefore.serves]
    · rw [hpc, hduring.serves]
  have htoTest : (T.pc i).toTest i = [] := by
    rcases hpc with hpc | hpc
    · rw [hpc, hbefore.toTest]
    · rw [hpc, hduring.toTest]
  have hseated : (T.pc i).seated = p.seated := by
    rcases hpc with hpc | hpc
    · rw [hpc]
    · rw [hpc, hduring.seated]
  have hout : (T.pc i).inside = false := by
    rcases hpc with hpc | hpc
    · rw [hpc, hbefore.inside]
    · rw [hpc, hduring.inside]
  have hfits : w.Fits (T.state i) := by
    have hold := h.fits i
    rcases hpc with hpc | hpc
    · rw [hpc] at hold
      exact hduring.fits _ hold
    · rw [hpc] at hold
      exact hold
  have hunits : ∀ t, .s t ≠ r → units b t = units T.sem t :=
    fun t ht => units_congr (hgot.value _ ht) (hgot.granted t _ ht)
  refine h.goto hgot.tight hplaces ?_ ?_ (meals_goto ?_ ?_ ?_)
    (fun c k hck => absurd hck (hafter.notTest c k)) (fun t ht => ?_)
  · cases hd with
    | self =>
        refine mutex_congr h.mutex (hgot.value _ (by rintro ⟨⟩))
          (holder_congr ?_ fun j => hgot.granted j _ (by rintro ⟨⟩))
        rw [hout]
        rfl
    | take =>
        obtain ⟨hvalue, halone⟩ := hgot.mutex rfl
        exact mutex_enter hvalue halone hgot.others rfl
    | put =>
        obtain ⟨hvalue, halone⟩ := hgot.mutex rfl
        exact mutex_enter hvalue halone hgot.others rfl
  · cases hd with
    | take => exact hfits
    | put => exact hfits
    | self =>
        -- a unit of `s[i]` is a permission to eat
        have hunit := hgot.unit rfl
        have hmeals := h.meals i
        show T.state i = .eating
        by_contra hne
        rw [if_neg hne, Table.meals] at hmeals
        omega
  · rw [hafter.serves, hserves]
  · rw [hseated]
    cases hd with
    | take => exact congrArg (· + _) (hunits i (by rintro ⟨⟩))
    | put => exact congrArg (· + _) (hunits i (by rintro ⟨⟩))
    | self => exact hgot.unit rfl
  · intro t hti
    cases hd with
    | take => exact hunits t (by rintro ⟨⟩)
    | put => exact hunits t (by rintro ⟨⟩)
    | self => exact hunits t fun heq => hti (PhiSem.s.inj heq)
  · rw [htoTest] at ht
    cases ht

/-- A unit found free. -/
theorem Inv.step_take (h : T.Inv) (hd : Pc.Downs i (T.pc i) r w q)
    (hv : 0 < T.sem.value r) : (T.goto (T.sem.take r) i q).Inv := by
  refine h.step_got ⟨h.tight.take, fun x hx => ?_, fun j x _ => Iff.rfl,
    fun j _ => rfl, fun hr => ?_, fun hr => ?_⟩ ?_ hd (Or.inl rfl)
  · rw [Sema.take_value, if_neg hx]
  · subst hr
    rcases h.mutex with ⟨hone, hnone⟩ | ⟨hzero, -⟩
    · refine ⟨?_, fun j _ => hnone j⟩
      rw [Sema.take_value, if_pos rfl, hone]
    · omega
  · subst hr
    rw [units, units, Sema.take_value, if_pos rfl, Sema.take_granted]
    omega
  · rw [waitsOn_update_same (hd.after.waitsOn.trans hd.before.waitsOn.symm)]
    exact h.places

/-- A unit that was handed over. -/
theorem Inv.step_resume (h : T.Inv) (hd : Pc.Downs i p r (T.pc i) q)
    (hg : T.sem.granted i = some r) :
    (T.goto (T.sem.resume i) i q).Inv := by
  refine h.step_got ⟨h.tight.resume, fun x _ => rfl, fun j x hx => ?_,
    fun j hj => ?_, fun hr => ?_, fun hr => ?_⟩ ?_ hd (Or.inr rfl)
  · rw [Sema.resume_granted]
    split
    case isTrue hj =>
        rw [hj, hg, Option.some.injEq]
        exact ⟨by rintro ⟨⟩, fun heq => absurd heq.symm hx⟩
    case isFalse => exact Iff.rfl
  · rw [Sema.resume_granted, if_neg hj]
  · subst hr
    rcases h.mutex with ⟨-, hnone⟩ | ⟨hzero, x, -, hone⟩
    · exact absurd (Or.inr hg) (hnone i)
    · refine ⟨hzero, fun j hj hholder => hj ?_⟩
      exact (hone j hholder).trans (hone i (Or.inr hg)).symm
  · subst hr
    rw [units, units, hg, Sema.resume_granted, if_pos rfl]
    simp
  · rw [waitsOn_update, hd.after.waitsOn]
    exact h.places.resume h.tight hg

/-- No unit: the thread joins those who wait. -/
theorem Inv.step_block (h : T.Inv) (hd : Pc.Downs i (T.pc i) r w q)
    (hv : T.sem.value r = 0) : (T.goto (T.sem.block i r) i w).Inv := by
  have hbefore := hd.before
  have hduring := hd.during
  have hidle := h.idle hbefore.waitsOn
  refine h.goto (h.tight.block hidle hv) ?_ ?_ (hduring.fits _ (h.fits i))
    (meals_goto ?_ ?_ fun t _ => rfl)
    (fun c k hck => absurd hck (hduring.notTest c k)) (fun t ht => ?_)
  · rw [waitsOn_update, hduring.waitsOn]
    exact h.places.block hbefore.waitsOn r
  · exact mutex_congr h.mutex rfl
      (holder_congr (hduring.inside.trans hbefore.inside.symm)
        fun _ => Iff.rfl)
  · rw [hduring.serves, hbefore.serves]
  · rw [hduring.seated]
    rfl
  · rw [hbefore.toTest] at ht
    cases ht

-- ---------------------------------------------------------------- phi_test_sema

theorem Inv.step_pass {k' : TestPc} (h : T.Inv) (hpc : T.pc i = .test c k)
    (hpass : T.Passes (c.arg i) k k') :
    (T.goto T.sem i (.test c k')).Inv := by
  have htested := h.tested i c k hpc
  have hfits := h.fits i
  rw [hpc] at hfits
  refine h.goto h.tight ?_ ?_ ?_ (meals_goto ?_ ?_ fun _ _ => rfl)
    (fun c' l hck => ?_) (fun t ht hnot _ => absurd ?_ hnot)
  · rw [waitsOn_update_same (by rw [hpc]; rfl)]
    exact h.places
  · exact mutex_congr h.mutex rfl
      (holder_congr (by rw [hpc]; rfl) fun _ => Iff.rfl)
  · cases c <;> exact hfits
  · rw [hpc]
    cases k <;> cases k' <;> first | rfl | exact hpass.elim
  · rw [hpc]
    rfl
  · cases hck
    cases k <;> cases k' <;> first | exact hpass.elim | skip
    · exact hpass
    · exact ⟨htested, hpass⟩
    · exact ⟨htested.1, htested.2, hpass⟩
  · rw [hpc] at ht
    cases k <;> cases k' <;> first | exact hpass.elim | skip
    all_goals cases c <;> exact ht

/-- A test that fails finds a neighbour eating, or `t` not hungry. -/
theorem Inv.step_fail (h : T.Inv) (hpc : T.pc i = .test c k)
    (hfail : T.Fails (c.arg i) k) : (T.goto T.sem i c.ret).Inv := by
  have hfits := h.fits i
  rw [hpc] at hfits
  refine h.goto h.tight ?_ ?_ (Pc.fits_ret hfits)
    (meals_goto ?_ ?_ fun _ _ => rfl) (fun c' l hck => ?_)
    (fun t ht hnot hhungry => ?_)
  · rw [waitsOn_update_same (by
      rw [hpc, Pc.waitsOn_of_inside (Pc.inside_ret c)]
      rfl)]
    exact h.places
  · exact mutex_congr h.mutex rfl
      (holder_congr (by rw [hpc, Pc.inside_ret]; rfl) fun _ => Iff.rfl)
  · rw [hpc, Pc.serves_ret]
    cases k <;> first | rfl | exact hfail.elim
  · rw [hpc, Pc.seated_ret]
    rfl
  · rw [Pc.tested_ret hck]
    trivial
  · rw [hpc] at ht
    have htarg : t = c.arg i := by
      by_contra hne
      exact hnot (Pc.toTest_ret ht hne)
    subst htarg
    cases k with
    | self => exact absurd hhungry hfail
    | left => exact Or.inl hfail
    | right => exact Or.inr hfail
    | store => exact hfail.elim
    | up => exact hfail.elim

theorem units_up_of_ne {a : Sema PhiSem Phi} (h : a.Tight)
    (hr : .s t ≠ r) : units (a.up r) t = units a t :=
  units_congr (Sema.up_value_of_ne hr) (Sema.up_granted_of_ne h hr)

/-- Only `t` waits on `s[t]`. -/
theorem Inv.queue_self (h : T.Inv) (hj : j ∈ T.sem.queue (.s t)) : j = t := by
  have hwaits := (h.places j (.s t)).2 (Or.inl hj)
  dsimp only at hwaits
  cases hpc : T.pc j <;> rw [hpc] at hwaits <;> cases hwaits
  rfl

/-- `up(&s[t])` adds a unit, free or handed to `t`. -/
theorem Inv.units_up (h : T.Inv) (t : Phi) :
    units (T.sem.up (.s t)) t = units T.sem t + 1 := by
  cases hq : T.sem.queue (.s t) with
  | nil =>
      rw [Sema.up_nil hq, units, units, Sema.put_value, if_pos rfl,
        Sema.put_granted]
      omega
  | cons x xs =>
      have hx : x ∈ T.sem.queue (.s t) := by
        rw [hq]
        exact List.mem_cons_self
      have hxt := h.queue_self hx
      subst hxt
      have hnone := h.tight.ungranted _ x hx
      rw [Sema.up_cons hq, units, units, Sema.grant_value,
        Sema.grant_granted, if_pos rfl, hnone]
      simp

/-- The `up` that was owed is made. -/
theorem Inv.step_serve (h : T.Inv) (hpc : T.pc i = .test c .up) :
    (T.goto (T.sem.up (.s (c.arg i))) i c.ret).Inv := by
  have hfits := h.fits i
  rw [hpc] at hfits
  have hin : (T.pc i).inside = true := by
    rw [hpc]
    rfl
  have hret := Pc.inside_ret c
  refine h.goto h.tight.up ?_ ?_ (Pc.fits_ret hfits) (fun t => ?_)
    (fun c' l hck => ?_) (fun t ht hnot _ => absurd ?_ hnot)
  · rw [waitsOn_update_same (by
      rw [Pc.waitsOn_of_inside hin, Pc.waitsOn_of_inside hret])]
    exact h.places.up h.tight _
  · exact mutex_congr h.mutex (Sema.up_value_of_ne (by rintro ⟨⟩))
      (holder_congr (hret.trans hin.symm) fun j =>
        Sema.up_granted_of_ne h.tight (by rintro ⟨⟩))
  · have hserved : T.Served t ↔ t = c.arg i := by
      rw [h.served_iff hin, hpc]
      show some (c.arg i) = some t ↔ _
      rw [Option.some.injEq]
      exact eq_comm
    have hserved' : ¬ (T.goto (T.sem.up (.s (c.arg i))) i c.ret).Served t := by
      rintro ⟨j, hj⟩
      rw [goto_pc, Function.update_apply] at hj
      split at hj
      case isTrue hji =>
          rw [hji, Pc.serves_ret] at hj
          cases hj
      case isFalse hji =>
          have hout := h.alone hin hji
          rw [Pc.inside_of_serves hj] at hout
          cases hout
    have hseated : (Function.update T.pc i c.ret t).seated
        = (T.pc t).seated := by
      rw [Function.update_apply]
      split
      case isTrue hti => rw [hti, hpc, Pc.seated_ret]; rfl
      case isFalse => rfl
    rw [Table.meals, Table.meals, decide_eq_false hserved', goto_sem,
      goto_pc, hseated]
    by_cases ht : t = c.arg i
    · rw [decide_eq_true (hserved.2 ht), ht, h.units_up]
      simp
    · have hne : PhiSem.s t ≠ .s (c.arg i) :=
        fun heq => ht (PhiSem.s.inj heq)
      rw [decide_eq_false (fun hs => ht (hserved.1 hs)),
        units_up_of_ne h.tight hne]
  · rw [Pc.tested_ret hck]
    trivial
  · rw [hpc] at ht
    exact Pc.toTest_ret_of_up ht

-- -------------------------------------------------------------------- up(&mutex)

/-- The critical section is left: its unit is free, or the oldest waiter
has it. -/
theorem Inv.mutex_leave (h : T.Inv) (hin : (T.pc i).inside = true)
    (hp : p.inside = false) :
    (T.goto (T.sem.up .mutex) i p).Mutex := by
  have hwaits := Pc.waitsOn_of_inside (i := i) hin
  have hidle := h.idle hwaits
  obtain ⟨hzero, hone⟩ : T.sem.value .mutex = 0
      ∧ ∀ j, T.Holder j → j = i := by
    rcases h.mutex with ⟨-, hnone⟩ | ⟨hzero, x, -, hone⟩
    · exact absurd (Or.inl hin) (hnone i)
    · exact ⟨hzero, fun j hj =>
        (hone j hj).trans (hone i (Or.inl hin)).symm⟩
  have hout : ∀ j, (Function.update T.pc i p j).inside = false := by
    intro j
    rw [Function.update_apply]
    split
    case isTrue => exact hp
    case isFalse hji => exact h.alone hin hji
  have hungranted : ∀ j, T.sem.granted j ≠ some .mutex := by
    intro j hj
    rw [hone j (Or.inr hj), hidle.1] at hj
    cases hj
  cases hq : T.sem.queue .mutex with
  | nil =>
      rw [Sema.up_nil hq]
      refine Or.inl ⟨?_, fun j hj => ?_⟩
      · rw [goto_sem, Sema.put_value, if_pos rfl, hzero]
      · rcases hj with hj | hj
        · rw [goto_pc, hout] at hj
          cases hj
        · exact hungranted j hj
  | cons x xs =>
      rw [Sema.up_cons hq]
      refine Or.inr ⟨hzero, x, Or.inr ?_, fun j hj => ?_⟩
      · rw [goto_sem, Sema.grant_granted, if_pos rfl]
      · rcases hj with hj | hj
        · rw [goto_pc, hout] at hj
          cases hj
        · rw [goto_sem, Sema.grant_granted] at hj
          by_contra hne
          rw [if_neg hne] at hj
          exact hungranted j hj

theorem Inv.step_unlock (h : T.Inv) (hu : Pc.Unlocks (T.pc i) p) :
    (T.goto (T.sem.up .mutex) i p).Inv := by
  have hleaves := hu.leaves (i := i)
  have hunits : ∀ t, units (T.sem.up .mutex) t = units T.sem t :=
    fun t => units_up_of_ne h.tight (by rintro ⟨⟩)
  refine h.goto h.tight.up ?_ (h.mutex_leave hleaves.inside hleaves.outside)
    (hleaves.fits _ (h.fits i))
    (meals_goto hleaves.serves ?_ fun t _ => hunits t)
    (fun c k hck => absurd hck (hleaves.notTest c k)) (fun t ht => ?_)
  · rw [waitsOn_update_same (hleaves.waitsOn.trans
      (Pc.waitsOn_of_inside hleaves.inside).symm)]
    exact h.places.up h.tight _
  · rw [hunits, hleaves.seated]
  · rw [hleaves.toTest] at ht
    cases ht

-- ------------------------------------------------------------------- state_sema

/-- A store inside the critical section. -/
theorem Inv.store (h : T.Inv) (hin : (T.pc i).inside = true)
    (hp : p.inside = true)
    (hfits : ∀ j, (Function.update T.pc i p j).Fits
      (Function.update T.state t st j))
    (hmeals : ∀ x, (T.store t st i p).meals x
      = if Function.update T.state t st x = .eating then 1 else 0)
    (hapart : ∀ x, Function.update T.state t st x = .eating →
      Function.update T.state t st (right x) ≠ .eating)
    (htested : ∀ c k, p = .test c k →
      (T.store t st i p).Tested (c.arg i) k)
    (hattended : ∀ x, Function.update T.state t st x = .hungry →
      (T.store t st i p).Attended x) :
    (T.store t st i p).Inv := by
  refine ⟨h.tight, ?_, ?_, hfits, hmeals, hapart, fun j c k hj => ?_,
    hattended⟩
  · rw [store_pc, waitsOn_update_same (by
      rw [Pc.waitsOn_of_inside hin, Pc.waitsOn_of_inside hp])]
    exact h.places
  · have hmutex : (T.goto T.sem i p).Mutex := mutex_congr h.mutex rfl
      (holder_congr (hp.trans hin.symm) fun _ => Iff.rfl)
    exact hmutex
  · rw [store_pc, Function.update_apply] at hj
    split at hj
    case isTrue heq => rw [heq]; exact htested c k hj
    case isFalse hji =>
        have hout := h.alone hin hji
        rw [hj] at hout
        cases hout

/-- What is around when `state_sema` is stored to, and nobody is served
or owed an `up`. -/
theorem meals_store (hserves : p.serves i = (T.pc i).serves i) (x : Phi) :
    (T.store t st i p).meals x + (T.pc x).seated.toNat
      = T.meals x + (Function.update T.pc i p x).seated.toNat := by
  have hserved : (T.store t st i p).Served x ↔ T.Served x := by
    refine served_congr fun j => ?_
    rw [Function.update_apply]
    split
    case isTrue hj => rw [hj, hserves]
    case isFalse => rfl
  rw [meals, meals, decide_eq_decide.2 hserved, store_sem, store_pc]
  omega

/-- `state_sema[i] = HUNGRY`. -/
theorem Inv.step_hungry (h : T.Inv) (hpc : T.pc i = .takeStore) :
    (T.store i .hungry i (.test .take .self)).Inv := by
  have hstate : T.state i = .thinking := by
    have hfits := h.fits i
    rw [hpc] at hfits
    exact hfits
  have heating : ∀ x, Function.update T.state i .hungry x = .eating
      ↔ T.state x = .eating := by
    intro x
    rw [Function.update_apply]
    split
    case isTrue hx => rw [hx, hstate]; exact ⟨by rintro ⟨⟩, by rintro ⟨⟩⟩
    case isFalse => exact Iff.rfl
  refine h.store (by rw [hpc]; rfl) rfl (fun j => ?_) (fun x => ?_)
    (fun x hx => ?_) (fun c k hck => ?_) (fun x hx => ?_)
  · by_cases hj : j = i
    · rw [hj, Function.update_self, Function.update_self]
      rintro ⟨⟩
    · rw [Function.update_of_ne hj, Function.update_of_ne hj]
      exact h.fits j
  · have hmeals : (T.store i .hungry i (.test .take .self)).meals x + _
        = _ := meals_store (by rw [hpc]; rfl) x
    have hseated : (Function.update T.pc i (.test .take .self) x).seated
        = (T.pc x).seated := by
      rw [Function.update_apply]
      split
      case isTrue hx => rw [hx, hpc]; rfl
      case isFalse => rfl
    rw [hseated] at hmeals
    simp only [heating]
    rw [← h.meals x]
    omega
  · intro hr
    rw [heating] at hx hr
    exact h.apart x hx hr
  · cases hck
    trivial
  · by_cases hxi : x = i
    · refine Or.inr (Or.inr ⟨i, ?_⟩)
      rw [store_pc, Function.update_self, hxi]
      exact List.mem_singleton_self i
    · rw [Function.update_of_ne hxi] at hx
      rcases h.attended x hx with hl | hr | ⟨j, hj⟩
      · exact Or.inl ((heating _).2 hl)
      · exact Or.inr (Or.inl ((heating _).2 hr))
      · have hji : j ≠ i := by
          rintro rfl
          rw [hpc] at hj
          cases hj
        refine Or.inr (Or.inr ⟨j, ?_⟩)
        rw [store_pc, Function.update_of_ne hji]
        exact hj

/-- `state_sema[i] = EATING`. -/
theorem Inv.step_seat (h : T.Inv) (hpc : T.pc i = .test c .store) :
    (T.store (c.arg i) .eating i (.test c .up)).Inv := by
  have hin : (T.pc i).inside = true := by
    rw [hpc]
    rfl
  obtain ⟨hhungry, hleft, hright⟩ := h.tested i c .store hpc
  have hunserved : ∀ x, ¬ T.Served x := by
    intro x hs
    rw [h.served_iff hin, hpc] at hs
    cases hs
  have hserved : ∀ x, (T.store (c.arg i) .eating i (.test c .up)).Served x
      ↔ x = c.arg i := by
    intro x
    constructor
    · rintro ⟨j, hj⟩
      rw [store_pc, Function.update_apply] at hj
      split at hj
      case isTrue hji =>
          rw [hji] at hj
          exact (Option.some.inj hj).symm
      case isFalse hji => exact absurd ⟨j, hj⟩ (hunserved x)
    · rintro rfl
      exact ⟨i, by rw [store_pc, Function.update_self]; rfl⟩
  have heating : ∀ x, T.state x = .eating →
      Function.update T.state (c.arg i) .eating x = .eating := by
    intro x hx
    rw [Function.update_apply]
    split
    · rfl
    · exact hx
  refine h.store hin rfl (fun j => ?_) (fun x => ?_)
    (fun x hx => ?_) (fun c' k hck => ?_) (fun x hx => ?_)
  · have hfits := h.fits j
    have hpcj : ∀ st, (T.pc j).Fits st →
        (Function.update T.pc i (.test c .up) j).Fits st := by
      intro st hst
      rw [Function.update_apply]
      split
      case isTrue hji =>
          rw [hji, hpc] at hst
          cases c <;> exact hst
      case isFalse => exact hst
    refine hpcj _ ?_
    rw [Function.update_apply]
    split
    case isTrue hj =>
        rw [hj, hhungry] at hfits
        rw [hj]
        exact Pc.fits_eating hfits
    case isFalse => exact hfits
  · have hseated : (Function.update T.pc i (.test c .up) x).seated
        = (T.pc x).seated := by
      rw [Function.update_apply]
      split
      case isTrue hx => rw [hx, hpc]; rfl
      case isFalse => rfl
    have hmeals := h.meals x
    rw [Table.meals, decide_eq_false (hunserved x)] at hmeals
    rw [Table.meals, store_sem, store_pc, hseated]
    by_cases hx : x = c.arg i
    · rw [decide_eq_true ((hserved x).2 hx), hx, Function.update_self,
        if_pos rfl]
      rw [hx, hhungry, if_neg (by rintro ⟨⟩), Bool.toNat_false] at hmeals
      rw [Bool.toNat_true]
      omega
    · rw [decide_eq_false (fun hs => hx ((hserved x).1 hs)),
        Function.update_of_ne hx]
      exact hmeals
  · by_cases hxt : x = c.arg i
    · rw [hxt, Function.update_of_ne (right_ne _)]
      exact hright
    · rw [Function.update_of_ne hxt] at hx
      have hrt : right x ≠ c.arg i := by
        intro heq
        rw [← heq, left_right] at hleft
        exact hleft hx
      rw [Function.update_of_ne hrt]
      exact h.apart x hx
  · cases hck
    show Function.update T.state (c.arg i) .eating (c.arg i) = .eating
    rw [Function.update_self]
  · have hxt : x ≠ c.arg i := by
      intro heq
      rw [heq, Function.update_self] at hx
      cases hx
    rw [Function.update_of_ne hxt] at hx
    rcases h.attended x hx with hl | hr | ⟨j, hj⟩
    · exact Or.inl (heating _ hl)
    · exact Or.inr (Or.inl (heating _ hr))
    · refine Or.inr (Or.inr ⟨j, ?_⟩)
      rw [store_pc, Function.update_apply]
      split
      case isTrue hji =>
          rw [hji, hpc] at hj
          rw [hji]
          exact Pc.toTest_up hj hxt
      case isFalse => exact hj

/-- `state_sema[i] = THINKING`. -/
theorem Inv.step_thinking (h : T.Inv) (hpc : T.pc i = .putStore) :
    (T.store i .thinking i (.test .putLeft .self)).Inv := by
  have hstate : T.state i = .eating := by
    have hfits := h.fits i
    rw [hpc] at hfits
    exact hfits
  have heating : ∀ x, Function.update T.state i .thinking x = .eating
      ↔ x ≠ i ∧ T.state x = .eating := by
    intro x
    rw [Function.update_apply]
    split
    case isTrue hx => exact ⟨by rintro ⟨⟩, fun hne => absurd hx hne.1⟩
    case isFalse hx => exact (and_iff_right hx).symm
  refine h.store (by rw [hpc]; rfl) rfl (fun j => ?_) (fun x => ?_)
    (fun x hx => ?_) (fun c k hck => ?_) (fun x hx => ?_)
  · by_cases hj : j = i
    · rw [hj, Function.update_self, Function.update_self]
      rfl
    · rw [Function.update_of_ne hj, Function.update_of_ne hj]
      exact h.fits j
  · have hmeals : (T.store i .thinking i (.test .putLeft .self)).meals x + _
        = _ := meals_store (by rw [hpc]; rfl) x
    have hold := h.meals x
    simp only [heating]
    by_cases hx : x = i
    · rw [hx, hstate, if_pos rfl] at hold
      rw [hx, hpc, hold, Function.update_self] at hmeals
      rw [hx, if_neg fun hne => hne.1 rfl]
      exact Nat.succ.inj hmeals
    · rw [Function.update_of_ne hx] at hmeals
      simp only [hx, ne_eq, not_false_eq_true, true_and]
      omega
  · intro hr
    exact h.apart x ((heating x).1 hx).2 ((heating _).1 hr).2
  · cases hck
    trivial
  · have hxi : x ≠ i := by
      intro heq
      rw [heq, Function.update_self] at hx
      cases hx
    rw [Function.update_of_ne hxi] at hx
    have hself : x = left i ∨ x = right i →
        (T.store i .thinking i (.test .putLeft .self)).Attended x := by
      intro hside
      refine Or.inr (Or.inr ⟨i, ?_⟩)
      rw [store_pc, Function.update_self]
      simpa [Pc.toTest] using hside
    rcases h.attended x hx with hl | hr | ⟨j, hj⟩
    · by_cases hli : left x = i
      · exact hself (Or.inr (by rw [← hli, right_left]))
      · exact Or.inl ((heating _).2 ⟨hli, hl⟩)
    · by_cases hri : right x = i
      · exact hself (Or.inl (by rw [← hri, left_right]))
      · exact Or.inr (Or.inl ((heating _).2 ⟨hri, hr⟩))
    · have hji : j ≠ i := by
        rintro rfl
        rw [hpc] at hj
        cases hj
      refine Or.inr (Or.inr ⟨j, ?_⟩)
      rw [store_pc, Function.update_of_ne hji]
      exact hj

/-- Every step keeps the invariant. -/
theorem Inv.step (h : T.Inv) (hstep : T.Step i T') : T'.Inv := by
  cases hstep with
  | idle hp => exact h.step_idle hp
  | take hd hv => exact h.step_take hd hv
  | block hd hv => exact h.step_block hd hv
  | resume hd hg => exact h.step_resume hd hg
  | hungry hpc => exact h.step_hungry hpc
  | pass hpc hpass => exact h.step_pass hpc hpass
  | fail hpc hfail => exact h.step_fail hpc hfail
  | seat hpc => exact h.step_seat hpc
  | serve hpc => exact h.step_serve hpc
  | thinking hpc => exact h.step_thinking hpc
  | unlock hu => exact h.step_unlock hu

/-- `s[t]` never holds more than one unit. -/
theorem Inv.value_le (h : T.Inv) (t : Phi) : T.sem.value (.s t) ≤ 1 := by
  have hmeals := h.meals t
  rw [Table.meals, units] at hmeals
  split at hmeals <;> omega

theorem Inv.mutex_le (h : T.Inv) : T.sem.value .mutex ≤ 1 := by
  rcases h.mutex with ⟨hone, -⟩ | ⟨hzero, -⟩ <;> omega

-- ======================================================= no deadlock

/-- A thread that does not wait in vain can take a step. -/
def Ready (T : Table) (i : Phi) : Prop :=
  T.pc i ≠ .quit ∧ ∀ r, (T.pc i).waitsOn i = some r →
    T.sem.granted i = some r

theorem ready_of_inside (h : (T.pc i).inside = true) : T.Ready i := by
  refine ⟨fun hq => ?_, fun r hr => ?_⟩
  · rw [hq] at h
    cases h
  · rw [Pc.waitsOn_of_inside h] at hr
    cases hr

/-- Who is not ready waits in a queue, and the semaphore has no unit. -/
theorem Inv.queued (h : T.Inv) (hr : (T.pc i).waitsOn i = some r)
    (hnot : ¬ T.Ready i) : i ∈ T.sem.queue r ∧ T.sem.value r = 0 := by
  have hq : T.pc i ≠ .quit := by
    intro hq
    rw [hq] at hr
    cases hr
  have hwait : i ∈ T.sem.queue r := by
    refine ((h.places i r).1 hr).resolve_right fun hg => hnot ⟨hq, ?_⟩
    intro x hx
    rw [hr] at hx
    rw [hg, hx]
  refine ⟨hwait, ?_⟩
  by_contra hne
  rw [h.tight.free r (Nat.pos_of_ne_zero hne)] at hwait
  cases hwait

/-- While nobody is ready nobody has the unit of `mutex`. -/
theorem Inv.nobody_inside (h : T.Inv) (hnot : ∀ j, ¬ T.Ready j) (j : Phi) :
    ¬ T.Holder j := by
  rintro (hin | hg)
  · exact hnot j (ready_of_inside hin)
  · have hwaits := (h.places j .mutex).2 (Or.inr hg)
    dsimp only at hwaits
    refine hnot j ⟨fun hq => ?_, fun r hr => ?_⟩
    · rw [hq] at hwaits
      cases hwaits
    · rw [hwaits] at hr
      rw [hg, hr]

/-- While nobody is ready everybody has quit or waits to eat. -/
theorem Inv.selfWait_of_stuck (h : T.Inv) (hnot : ∀ j, ¬ T.Ready j)
    (hq : T.pc j ≠ .quit) : T.pc j = .selfWait := by
  cases hwaits : (T.pc j).waitsOn j with
  | none =>
      refine absurd ⟨hq, fun r hr => ?_⟩ (hnot j)
      rw [hwaits] at hr
      cases hr
  | some r =>
      have hr : r ≠ .mutex := by
        rintro rfl
        have hzero := (h.queued hwaits (hnot j)).2
        rcases h.mutex with ⟨hone, -⟩ | ⟨-, x, hx, -⟩
        · omega
        · exact h.nobody_inside hnot x hx
      cases hpc : T.pc j <;> rw [hpc] at hwaits <;> cases hwaits
      all_goals exact absurd rfl hr

/-- While nobody is ready nobody eats. -/
theorem Inv.nobody_eats (h : T.Inv) (hnot : ∀ j, ¬ T.Ready j) (j : Phi) :
    T.state j ≠ .eating := by
  intro heat
  have hmeals := h.meals j
  have hunserved : ¬ T.Served j := fun ⟨x, hx⟩ =>
    h.nobody_inside hnot x (Or.inl (Pc.inside_of_serves hx))
  have hpc : T.pc j = .selfWait := by
    refine h.selfWait_of_stuck hnot fun hq => ?_
    have hfits := h.fits j
    rw [hq, heat] at hfits
    cases hfits
  have hwaits : (T.pc j).waitsOn j = some (.s j) := by
    rw [hpc]
    rfl
  obtain ⟨hmem, hzero⟩ := h.queued hwaits (hnot j)
  have hungranted := h.tight.ungranted _ j hmem
  rw [Table.meals, units, hzero, hungranted, decide_eq_false hunserved, hpc,
    heat, if_pos rfl] at hmeals
  cases hmeals

/-- Somebody is ready while anybody has not quit. -/
theorem Inv.exists_ready (h : T.Inv) (hi : T.pc i ≠ .quit) :
    ∃ j, T.Ready j := by
  by_contra hno
  rw [not_exists] at hno
  have hpc := h.selfWait_of_stuck hno hi
  have hhungry : T.state i = .hungry := by
    have hfits := h.fits i
    rw [hpc] at hfits
    have hne := h.nobody_eats hno i
    cases hst : T.state i with
    | thinking => exact absurd hst hfits
    | hungry => rfl
    | eating => exact absurd hst hne
  rcases h.attended i hhungry with hl | hr | ⟨j, hj⟩
  · exact h.nobody_eats hno _ hl
  · exact h.nobody_eats hno _ hr
  · exact h.nobody_inside hno j (Or.inl (Pc.inside_of_toTest hj))

end Table

end Ucore.Sync
