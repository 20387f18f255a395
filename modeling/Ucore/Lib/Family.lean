/-
Family trees kept in four pointers of each member: its parent, its
youngest child, and its next younger and next older sibling.

# The shape

A family gives every member a list of children, youngest first. `Older`
says that following the older-sibling pointers visits the list, `Younger`
that the younger-sibling pointers go back along it. Pointers of those who
are not members carry no information.

# Moving children

A child moves from one parent to another by being cut off the front of
its old list and put in front of the new one, one child after the other.
In between, the younger-sibling pointers of the old list are out of date;
`loose` names the parents whose children's pointers may be.
-/
import Mathlib.Data.List.Nodup
import Mathlib.Data.Set.Insert
import Mathlib.Logic.Function.Basic

namespace Ucore

/-- The pointers of every member. -/
structure Kin (ν : Type) where
  parent : ν → Option ν
  cptr : ν → Option ν
  yptr : ν → Option ν
  optr : ν → Option ν

namespace Kin

variable {ν : Type} [DecidableEq ν]

-- ================================================= storing a pointer

/-- Store a parent pointer. -/
def setParent (k : Kin ν) (c : ν) (p : Option ν) : Kin ν :=
  { k with parent := Function.update k.parent c p }

/-- Store a youngest-child pointer. -/
def setCptr (k : Kin ν) (p : ν) (c : Option ν) : Kin ν :=
  { k with cptr := Function.update k.cptr p c }

/-- Store a younger-sibling pointer. -/
def setYptr (k : Kin ν) (c : ν) (y : Option ν) : Kin ν :=
  { k with yptr := Function.update k.yptr c y }

/-- Store an older-sibling pointer. -/
def setOptr (k : Kin ν) (c : ν) (o : Option ν) : Kin ν :=
  { k with optr := Function.update k.optr c o }

/-- Store the younger-sibling pointer of a member, if there is one. -/
def setYptrOf (k : Kin ν) : Option ν → Option ν → Kin ν
  | none, _ => k
  | some c, y => k.setYptr c y

variable (k : Kin ν) (a b : ν) (v : Option ν)

@[simp] theorem setParent_parent : (k.setParent a v).parent b
    = if b = a then v else k.parent b := by
  simp [setParent, Function.update_apply]

@[simp] theorem setParent_cptr : (k.setParent a v).cptr = k.cptr := rfl
@[simp] theorem setParent_yptr : (k.setParent a v).yptr = k.yptr := rfl
@[simp] theorem setParent_optr : (k.setParent a v).optr = k.optr := rfl

@[simp] theorem setCptr_cptr : (k.setCptr a v).cptr b
    = if b = a then v else k.cptr b := by
  simp [setCptr, Function.update_apply]

@[simp] theorem setCptr_parent : (k.setCptr a v).parent = k.parent := rfl
@[simp] theorem setCptr_yptr : (k.setCptr a v).yptr = k.yptr := rfl
@[simp] theorem setCptr_optr : (k.setCptr a v).optr = k.optr := rfl

@[simp] theorem setYptr_yptr : (k.setYptr a v).yptr b
    = if b = a then v else k.yptr b := by
  simp [setYptr, Function.update_apply]

@[simp] theorem setYptr_parent : (k.setYptr a v).parent = k.parent := rfl
@[simp] theorem setYptr_cptr : (k.setYptr a v).cptr = k.cptr := rfl
@[simp] theorem setYptr_optr : (k.setYptr a v).optr = k.optr := rfl

@[simp] theorem setOptr_optr : (k.setOptr a v).optr b
    = if b = a then v else k.optr b := by
  simp [setOptr, Function.update_apply]

@[simp] theorem setOptr_parent : (k.setOptr a v).parent = k.parent := rfl
@[simp] theorem setOptr_cptr : (k.setOptr a v).cptr = k.cptr := rfl
@[simp] theorem setOptr_yptr : (k.setOptr a v).yptr = k.yptr := rfl

@[simp] theorem setYptrOf_parent (c : Option ν) :
    (k.setYptrOf c v).parent = k.parent := by
  cases c <;> rfl

@[simp] theorem setYptrOf_cptr (c : Option ν) :
    (k.setYptrOf c v).cptr = k.cptr := by
  cases c <;> rfl

@[simp] theorem setYptrOf_optr (c : Option ν) :
    (k.setYptrOf c v).optr = k.optr := by
  cases c <;> rfl

@[simp] theorem setYptrOf_yptr (c : Option ν) :
    (k.setYptrOf c v).yptr b = if c = some b then v else k.yptr b := by
  cases c with
  | none => rfl
  | some c =>
      show (k.setYptr c v).yptr b = _
      rw [setYptr_yptr]
      by_cases hbc : b = c
      · rw [if_pos hbc, if_pos (by rw [hbc])]
      · rw [if_neg hbc, if_neg fun heq => hbc (Option.some.inj heq).symm]

-- ==================================================== the operations

/-- Enter `c` as the youngest child of `p`. -/
def enter (k : Kin ν) (c p : ν) : Kin ν :=
  let k := k.setYptr c none
  let k := k.setOptr c (k.cptr p)
  let k := k.setYptrOf (k.optr c) (some c)
  k.setCptr p (some c)

/-- Take `c` out from between its siblings; `p` is its parent. -/
def leave (k : Kin ν) (c p : ν) : Kin ν :=
  let k := k.setYptrOf (k.optr c) (k.yptr c)
  match k.yptr c with
  | some y => k.setOptr y (k.optr c)
  | none => k.setCptr p (k.optr c)

/-- Move the youngest child `c` of `e` to the front of the children of
`r`. -/
def adopt (k : Kin ν) (e r c : ν) : Kin ν :=
  let k := k.setCptr e (k.optr c)
  let k := k.setYptr c none
  let k := k.setOptr c (k.cptr r)
  let k := k.setYptrOf (k.cptr r) (some c)
  let k := k.setParent c (some r)
  k.setCptr r (some c)

end Kin

-- ================================================= lists of children

variable {ν : Type} {k k' : Kin ν} {a c e p r x : ν} {y y' z z' : Option ν}
  {xs ys pre suf : List ν}

/-- The older-sibling pointers go along the list, to `z` at its end. -/
def Older (k : Kin ν) : List ν → Option ν → Prop
  | [], _ => True
  | c :: cs, z => k.optr c = cs.head?.or z ∧ Older k cs z

/-- The younger-sibling pointers go back along the list, to `y` at its
front. -/
def Younger (k : Kin ν) : Option ν → List ν → Prop
  | _, [] => True
  | y, c :: cs => k.yptr c = y ∧ Younger k (some c) cs

theorem Older.congr (h : Older k xs z)
    (hsame : ∀ c ∈ xs, k'.optr c = k.optr c) : Older k' xs z := by
  induction xs with
  | nil => trivial
  | cons c cs ih =>
      refine ⟨(hsame c List.mem_cons_self).trans h.1, ?_⟩
      exact ih h.2 fun x hx => hsame x (List.mem_cons_of_mem c hx)

theorem Younger.congr (h : Younger k y xs)
    (hsame : ∀ c ∈ xs, k'.yptr c = k.yptr c) : Younger k' y xs := by
  induction xs generalizing y with
  | nil => trivial
  | cons c cs ih =>
      refine ⟨(hsame c List.mem_cons_self).trans h.1, ?_⟩
      exact ih h.2 fun x hx => hsame x (List.mem_cons_of_mem c hx)

theorem older_append :
    Older k (xs ++ ys) z ↔ Older k xs (ys.head?.or z) ∧ Older k ys z := by
  induction xs with
  | nil => simp [Older]
  | cons c cs ih =>
      simp only [List.cons_append, Older, ih, List.head?_append,
        Option.or_assoc, and_assoc]

theorem younger_append :
    Younger k y (xs ++ ys)
      ↔ Younger k y xs ∧ Younger k (xs.getLast?.or y) ys := by
  induction xs generalizing y with
  | nil => simp [Younger]
  | cons c cs ih =>
      have hlast : (c :: cs).getLast?.or y = cs.getLast?.or (some c) := by
        cases cs with
        | nil => rfl
        | cons d ds =>
            rw [List.getLast?_cons_cons]
            cases hl : (d :: ds).getLast? with
            | none => simp at hl
            | some l => rfl
      simp only [List.cons_append, Younger, ih, hlast, and_assoc]

/-- The end of a list is joined to something else. -/
theorem Older.redirect {l : ν} (h : Older k (pre ++ [l]) z)
    (hl : k'.optr l = z') (hsame : ∀ c ∈ pre, k'.optr c = k.optr c) :
    Older k' (pre ++ [l]) z' := by
  rw [older_append] at h ⊢
  refine ⟨?_, by simpa [Older] using hl⟩
  have hpre : Older k pre (some l) := by simpa using h.1
  simpa using hpre.congr hsame

/-- The front of a list is joined to something else. -/
theorem Younger.redirect (h : Younger k y (c :: suf)) (hc : k'.yptr c = y')
    (hsame : ∀ x ∈ suf, k'.yptr x = k.yptr x) :
    Younger k' y' (c :: suf) :=
  ⟨hc, h.2.congr hsame⟩

-- ========================================================== families

/-- The members `live` below `root`, with the children of each. -/
structure Family (k : Kin ν) (live loose : Set ν) (root : ν)
    (children : ν → List ν) : Prop where
  head : ∀ p ∈ live, k.cptr p = (children p).head?
  older : ∀ p ∈ live, Older k (children p) none
  younger : ∀ p ∈ live, p ∉ loose → Younger k none (children p)
  nodup : ∀ p ∈ live, (children p).Nodup
  child : ∀ p ∈ live, ∀ c ∈ children p, c ∈ live ∧ c ≠ root
    ∧ k.parent c = some p
  parent : ∀ c ∈ live, c ≠ root → ∃ p ∈ live, c ∈ children p

variable {live loose : Set ν} {root : ν} {children : ν → List ν}

/-- A member is the child of one parent. -/
theorem Family.parent_unique (h : Family k live loose root children)
    (hp : p ∈ live) (hr : r ∈ live) (hcp : c ∈ children p)
    (hcr : c ∈ children r) : p = r := by
  have h1 := (h.child p hp c hcp).2.2
  have h2 := (h.child r hr c hcr).2.2
  exact Option.some.inj (h1.symm.trans h2)

/-- The parent pointer names the parent. -/
theorem Family.mem_children (h : Family k live loose root children)
    (hc : c ∈ live) (hne : c ≠ root) (hparent : k.parent c = some p) :
    p ∈ live ∧ c ∈ children p := by
  obtain ⟨r, hr, hcr⟩ := h.parent c hc hne
  have hpr : r = p :=
    Option.some.inj ((h.child r hr c hcr).2.2.symm.trans hparent)
  rw [← hpr]
  exact ⟨hr, hcr⟩

/-- Pointers of others do not matter. -/
theorem Family.congr (h : Family k live loose root children)
    (hparent : ∀ c ∈ live, k'.parent c = k.parent c)
    (hcptr : ∀ c ∈ live, k'.cptr c = k.cptr c)
    (hyptr : ∀ c ∈ live, k'.yptr c = k.yptr c)
    (hoptr : ∀ c ∈ live, k'.optr c = k.optr c) :
    Family k' live loose root children := by
  refine ⟨fun p hp => ?_, fun p hp => ?_, fun p hp hl => ?_, h.nodup,
    fun p hp c hc => ?_, h.parent⟩
  · rw [hcptr p hp]
    exact h.head p hp
  · exact (h.older p hp).congr fun c hc => hoptr c (h.child p hp c hc).1
  · exact (h.younger p hp hl).congr fun c hc =>
      hyptr c (h.child p hp c hc).1
  · obtain ⟨hlive, hne, hpar⟩ := h.child p hp c hc
    exact ⟨hlive, hne, (hparent c hlive).trans hpar⟩

/-- Fewer parents whose children's pointers may be out of date. -/
theorem Family.tighten (h : Family k live loose root children)
    (hempty : ∀ p ∈ loose, children p = []) :
    Family k live ∅ root children := by
  refine ⟨h.head, h.older, fun p hp _ => ?_, h.nodup, h.child, h.parent⟩
  by_cases hl : p ∈ loose
  · rw [hempty p hl]
    trivial
  · exact h.younger p hp hl

theorem Family.loosen (h : Family k live ∅ root children) (loose : Set ν) :
    Family k live loose root children :=
  ⟨h.head, h.older, fun p hp _ => h.younger p hp (Set.notMem_empty p),
    h.nodup, h.child, h.parent⟩

variable [DecidableEq ν]

-- ------------------------------------------------------------------- entering

theorem Kin.enter_eq : k.enter c p
    = (((k.setYptr c none).setOptr c (k.cptr p)).setYptrOf (k.cptr p)
      (some c)).setCptr p (some c) := by
  simp [Kin.enter]

theorem Kin.enter_cptr : (k.enter c p).cptr x
    = if x = p then some c else k.cptr x := by
  simp [Kin.enter]

theorem Kin.enter_parent : (k.enter c p).parent = k.parent := by
  simp [Kin.enter]

theorem Kin.enter_optr : (k.enter c p).optr x
    = if x = c then k.cptr p else k.optr x := by
  simp [Kin.enter]

theorem Kin.enter_yptr : (k.enter c p).yptr x
    = if k.cptr p = some x then some c
      else if x = c then none else k.yptr x := by
  simp [Kin.enter]

/-- A new member is entered in front of its siblings. -/
theorem Family.enter (h : Family k live ∅ root children) (hc : c ∉ live)
    (hp : p ∈ live) (hroot : root ∈ live) (hparent : k.parent c = some p)
    (hcptr : k.cptr c = none) :
    Family (k.enter c p) (insert c live) ∅ root
      (Function.update (Function.update children c []) p
        (c :: children p)) := by
  have hpc : p ≠ c := fun heq => hc (heq ▸ hp)
  have hrc : c ≠ root := fun heq => hc (heq ▸ hroot)
  have hout : ∀ q ∈ live, c ∉ children q :=
    fun q hq hmem => hc (h.child q hq c hmem).1
  have hfront : ∀ q ∈ live, q ≠ p → ∀ x ∈ children q, k.cptr p ≠ some x := by
    intro q hq hqp x hx heq
    rw [h.head p hp] at heq
    exact hqp (h.parent_unique hq hp hx (List.mem_of_mem_head? heq))
  refine ⟨fun q hq => ?_, fun q hq => ?_, fun q hq _ => ?_, fun q hq => ?_,
    fun q hq x hx => ?_, fun x hx hne => ?_⟩
  · rw [Kin.enter_cptr, Function.update_apply]
    split
    · rfl
    · rcases Set.mem_insert_iff.1 hq with hqc | hq
      · rw [hqc, Function.update_self, hcptr]
        rfl
      · have hqc : q ≠ c := fun heq => hc (heq ▸ hq)
        rw [Function.update_of_ne hqc]
        exact h.head q hq
  · have hold : ∀ q ∈ live, Older (k.enter c p) (children q) none :=
      fun q hq => (h.older q hq).congr fun x hx => by
        have hxc : x ≠ c := fun heq => hout q hq (heq ▸ hx)
        rw [Kin.enter_optr, if_neg hxc]
    rw [Function.update_apply]
    split
    · refine ⟨?_, hold p hp⟩
      rw [Kin.enter_optr, if_pos rfl, h.head p hp, Option.or_none]
    · rcases Set.mem_insert_iff.1 hq with hqc | hq
      · rw [hqc, Function.update_self]
        trivial
      · have hqc : q ≠ c := fun heq => hc (heq ▸ hq)
        rw [Function.update_of_ne hqc]
        exact hold q hq
  · rw [Function.update_apply]
    split
    case isTrue hqp =>
        have hcself : k.cptr p ≠ some c := by
          intro heq
          rw [h.head p hp] at heq
          exact hout p hp (List.mem_of_mem_head? heq)
        refine ⟨by rw [Kin.enter_yptr, if_neg hcself, if_pos rfl], ?_⟩
        have hyoung := h.younger p hp (Set.notMem_empty p)
        have hhead := h.head p hp
        have hnd := h.nodup p hp
        cases hch : children p with
        | nil => trivial
        | cons d ds =>
            rw [hch] at hyoung hhead hnd
            refine hyoung.redirect ?_ fun x hx => ?_
            · have hd : k.cptr p = some d := hhead
              rw [Kin.enter_yptr, if_pos hd]
            · have hxd : k.cptr p ≠ some x := by
                rw [hhead]
                intro heq
                exact (List.nodup_cons.1 hnd).1
                  ((Option.some.inj heq).symm ▸ hx)
              have hxc : x ≠ c := by
                rintro rfl
                exact hout p hp (by rw [hch]; exact List.mem_cons_of_mem d hx)
              rw [Kin.enter_yptr, if_neg hxd, if_neg hxc]
    case isFalse hqp =>
        rcases Set.mem_insert_iff.1 hq with hqc | hq
        · rw [hqc, Function.update_self]
          trivial
        · have hqc : q ≠ c := fun heq => hc (heq ▸ hq)
          rw [Function.update_of_ne hqc]
          refine (h.younger q hq (Set.notMem_empty q)).congr fun x hx => ?_
          have hxc : x ≠ c := fun heq => hout q hq (heq ▸ hx)
          rw [Kin.enter_yptr, if_neg (hfront q hq hqp x hx), if_neg hxc]
  · rw [Function.update_apply]
    split
    · exact List.nodup_cons.2 ⟨hout p hp, h.nodup p hp⟩
    · rcases Set.mem_insert_iff.1 hq with hqc | hq
      · rw [hqc, Function.update_self]
        exact List.nodup_nil
      · have hqc : q ≠ c := fun heq => hc (heq ▸ hq)
        rw [Function.update_of_ne hqc]
        exact h.nodup q hq
  · rw [Kin.enter_parent]
    have hold : ∀ q ∈ live, ∀ x ∈ children q, x ∈ insert c live ∧ x ≠ root
        ∧ k.parent x = some q := fun q hq x hx =>
      ⟨Set.mem_insert_of_mem c (h.child q hq x hx).1, (h.child q hq x hx).2⟩
    rw [Function.update_apply] at hx
    split at hx
    case isTrue hqp =>
        rw [hqp]
        rcases List.mem_cons.1 hx with rfl | hx
        · exact ⟨Set.mem_insert x live, hrc, hparent⟩
        · exact hold p hp x hx
    case isFalse hqp =>
        rcases Set.mem_insert_iff.1 hq with hqc | hq
        · rw [hqc, Function.update_self] at hx
          cases hx
        · have hqc : q ≠ c := fun heq => hc (heq ▸ hq)
          rw [Function.update_of_ne hqc] at hx
          exact hold q hq x hx
  · rcases Set.mem_insert_iff.1 hx with hxc | hx
    · refine ⟨p, Set.mem_insert_of_mem c hp, ?_⟩
      rw [hxc, Function.update_self]
      exact List.mem_cons_self
    · obtain ⟨q, hq, hxq⟩ := h.parent x hx hne
      refine ⟨q, Set.mem_insert_of_mem c hq, ?_⟩
      have hqc : q ≠ c := fun heq => hc (heq ▸ hq)
      rw [Function.update_apply]
      split
      case isTrue hqp => exact List.mem_cons_of_mem c (hqp ▸ hxq)
      case isFalse => rw [Function.update_of_ne hqc]; exact hxq

-- --------------------------------------------------------------------- leaving

theorem Kin.leave_eq_some {l : ν}
    (hy : (k.setYptrOf (k.optr c) (k.yptr c)).yptr c = some l) :
    k.leave c p
      = (k.setYptrOf (k.optr c) (k.yptr c)).setOptr l (k.optr c) := by
  unfold Kin.leave
  dsimp only
  rw [hy, Kin.setYptrOf_optr]

theorem Kin.leave_eq_none
    (hy : (k.setYptrOf (k.optr c) (k.yptr c)).yptr c = none) :
    k.leave c p
      = (k.setYptrOf (k.optr c) (k.yptr c)).setCptr p (k.optr c) := by
  unfold Kin.leave
  dsimp only
  rw [hy, Kin.setYptrOf_optr]

theorem Kin.leave_parent : (k.leave c p).parent = k.parent := by
  unfold Kin.leave
  dsimp only
  split <;> simp

theorem Kin.leave_yptr : (k.leave c p).yptr x
    = if k.optr c = some x then k.yptr c else k.yptr x := by
  unfold Kin.leave
  dsimp only
  split <;> simp

/-- With a younger sibling, that one's pointer is stored. -/
theorem Kin.leave_between {l : ν} (hl : k.yptr c = some l)
    (hc : k.optr c ≠ some c) :
    (k.leave c p).cptr = k.cptr
      ∧ ∀ x, (k.leave c p).optr x = if x = l then k.optr c else k.optr x := by
  have hy : (k.setYptrOf (k.optr c) (k.yptr c)).yptr c = some l := by
    rw [Kin.setYptrOf_yptr, if_neg hc, hl]
  rw [Kin.leave_eq_some hy]
  exact ⟨by simp, by simp⟩

/-- The youngest child's leaving is stored with its parent. -/
theorem Kin.leave_front (hl : k.yptr c = none) (hc : k.optr c ≠ some c) :
    (k.leave c p).optr = k.optr
      ∧ ∀ x, (k.leave c p).cptr x = if x = p then k.optr c else k.cptr x := by
  have hy : (k.setYptrOf (k.optr c) (k.yptr c)).yptr c = none := by
    rw [Kin.setYptrOf_yptr, if_neg hc, hl]
  rw [Kin.leave_eq_none hy]
  exact ⟨by simp, by simp⟩

/-- A member without children leaves. -/
theorem Family.leave (h : Family k live ∅ root children) (hp : p ∈ live)
    (hch : children p = pre ++ c :: suf) (hempty : children c = []) :
    Family (k.leave c p) (live \ {c}) ∅ root
      (Function.update children p (pre ++ suf)) := by
  have hcp : c ∈ children p := by
    rw [hch]
    simp
  obtain ⟨hc, hcroot, hparent⟩ := h.child p hp c hcp
  have hpc : p ≠ c := by
    rintro rfl
    rw [hempty] at hcp
    cases hcp
  have hnd := h.nodup p hp
  rw [hch] at hnd
  obtain ⟨hndpre, hndsuf, hdisj⟩ := List.nodup_append.1 hnd
  have holder := h.older p hp
  rw [hch, older_append] at holder
  obtain ⟨hopre, hoc, hosuf⟩ := holder
  have hyounger := h.younger p hp (Set.notMem_empty p)
  rw [hch, younger_append] at hyounger
  obtain ⟨hypre, hyc, hysuf⟩ := hyounger
  rw [Option.or_none] at hoc
  rw [Option.or_none] at hyc
  have hself : k.optr c ≠ some c := by
    rw [hoc]
    intro heq
    exact (List.nodup_cons.1 hndsuf).1 (List.mem_of_mem_head? heq)
  have hcpre : c ∉ pre := fun hm => hdisj c hm c List.mem_cons_self rfl
  have hcsuf : c ∉ suf := (List.nodup_cons.1 hndsuf).1
  have hother : ∀ q ∈ live, q ≠ p → ∀ x ∈ children q, x ∉ children p :=
    fun q hq hqp x hx hxp => hqp (h.parent_unique hq hp hx hxp)
  have hsufp : ∀ x ∈ suf, x ∈ children p := by
    intro x hx
    rw [hch]
    simp [hx]
  have hprep : ∀ x ∈ pre, x ∈ children p := by
    intro x hx
    rw [hch]
    simp [hx]
  have hyother : ∀ q ∈ live, q ≠ p → ∀ x ∈ children q,
      (k.leave c p).yptr x = k.yptr x := by
    intro q hq hqp x hx
    rw [Kin.leave_yptr, if_neg]
    intro heq
    rw [hoc] at heq
    exact hother q hq hqp x hx (hsufp x (List.mem_of_mem_head? heq))
  have hlast : ∀ pre' l, pre = List.concat pre' l → k.yptr c = some l := by
    intro pre' l hpre
    rw [hyc, hpre]
    simp
  have hcptr : ∀ q, (k.leave c p).cptr q
      = if q = p then (pre ++ suf).head? else k.cptr q := by
    intro q
    rcases List.eq_nil_or_concat pre with hnil | ⟨pre', l, hpre⟩
    · rw [hnil] at hyc ⊢
      rw [(Kin.leave_front hyc hself).2, hoc]
      rfl
    · rw [(Kin.leave_between (hlast pre' l hpre) hself).1]
      split
      case isTrue hqp =>
          rw [hqp, h.head p hp, hch, hpre, List.concat_eq_append]
          cases pre' <;> rfl
      case isFalse => rfl
  have hoptr : ∀ x, x ∉ pre → (k.leave c p).optr x = k.optr x := by
    intro x hx
    rcases List.eq_nil_or_concat pre with hnil | ⟨pre', l, hpre⟩
    · rw [hnil] at hyc
      rw [(Kin.leave_front hyc hself).1]
    · have hxl : x ≠ l := by
        rintro rfl
        exact hx (by rw [hpre]; simp)
      rw [(Kin.leave_between (hlast pre' l hpre) hself).2, if_neg hxl]
  have holdpre : Older (k.leave c p) pre suf.head? := by
    rcases List.eq_nil_or_concat pre with hnil | ⟨pre', l, hpre⟩
    · rw [hnil]
      trivial
    · have hyl := hlast pre' l hpre
      rw [hpre, List.concat_eq_append] at hopre hndpre ⊢
      refine hopre.redirect ?_ fun x hx => ?_
      · rw [(Kin.leave_between hyl hself).2, if_pos rfl, hoc]
      · have hxl : x ≠ l := by
          rintro rfl
          exact (List.nodup_append.1 hndpre).2.2 x hx x
            (List.mem_singleton_self x) rfl
        rw [(Kin.leave_between hyl hself).2, if_neg hxl]
  refine ⟨fun q hq => ?_, fun q hq => ?_, fun q hq _ => ?_, fun q hq => ?_,
    fun q hq x hx => ?_, fun x hx hne => ?_⟩
  · rw [hcptr q, Function.update_apply]
    split
    · rfl
    · exact h.head q hq.1
  · rw [Function.update_apply]
    split
    · rw [older_append, Option.or_none]
      refine ⟨holdpre, hosuf.congr fun x hx => hoptr x fun hm => ?_⟩
      exact hdisj x hm x (List.mem_cons_of_mem c hx) rfl
    case isFalse hqp =>
        refine (h.older q hq.1).congr fun x hx => hoptr x fun hm => ?_
        exact hother q hq.1 hqp x hx (hprep x hm)
  · rw [Function.update_apply]
    split
    · rw [younger_append, Option.or_none]
      constructor
      · refine hypre.congr fun x hx => ?_
        rw [Kin.leave_yptr, if_neg]
        intro heq
        rw [hoc] at heq
        exact hdisj x hx x
          (List.mem_cons_of_mem c (List.mem_of_mem_head? heq)) rfl
      · cases hs : suf with
        | nil => trivial
        | cons d ds =>
            rw [hs] at hysuf hoc hndsuf
            refine hysuf.redirect ?_ fun x hx => ?_
            · have hd : k.optr c = some d := hoc
              rw [Kin.leave_yptr, if_pos hd, hyc]
            · rw [Kin.leave_yptr, if_neg]
              rw [hoc]
              intro heq
              have hds := (List.nodup_cons.1 (List.nodup_cons.1 hndsuf).2).1
              exact hds ((Option.some.inj heq).symm ▸ hx)
    case isFalse hqp =>
        exact (h.younger q hq.1 (Set.notMem_empty q)).congr
          (hyother q hq.1 hqp)
  · rw [Function.update_apply]
    split
    · exact List.nodup_append.2 ⟨hndpre, (List.nodup_cons.1 hndsuf).2,
        fun x hx z hz => hdisj x hx z (List.mem_cons_of_mem c hz)⟩
    · exact h.nodup q hq.1
  · rw [Kin.leave_parent]
    have hkeep : ∀ q ∈ live, ∀ x ∈ children q, x ≠ c →
        x ∈ live \ {c} ∧ x ≠ root ∧ k.parent x = some q :=
      fun q hq x hx hxc => ⟨⟨(h.child q hq x hx).1, hxc⟩,
        (h.child q hq x hx).2⟩
    rw [Function.update_apply] at hx
    split at hx
    case isTrue hqp =>
        rw [hqp]
        rcases List.mem_append.1 hx with hx | hx
        · exact hkeep p hp x (hprep x hx) fun heq => hcpre (heq ▸ hx)
        · exact hkeep p hp x (hsufp x hx) fun heq => hcsuf (heq ▸ hx)
    case isFalse hqp =>
        refine hkeep q hq.1 x hx fun heq => ?_
        exact hother q hq.1 hqp x hx (heq ▸ hcp)
  · obtain ⟨q, hq, hxq⟩ := h.parent x hx.1 hne
    have hqc : q ≠ c := by
      rintro rfl
      rw [hempty] at hxq
      cases hxq
    refine ⟨q, ⟨hq, hqc⟩, ?_⟩
    rw [Function.update_apply]
    split
    case isTrue hqp =>
        rw [hqp, hch] at hxq
        rcases List.mem_append.1 hxq with hm | hm
        · exact List.mem_append_left suf hm
        · rcases List.mem_cons.1 hm with heq | hm
          · exact absurd heq hx.2
          · exact List.mem_append_right pre hm
    case isFalse => exact hxq

-- -------------------------------------------------------------------- adopting

theorem Kin.adopt_cptr (hne : r ≠ e) : (k.adopt e r c).cptr x
    = if x = r then some c else if x = e then k.optr c else k.cptr x := by
  simp [Kin.adopt]

theorem Kin.adopt_parent : (k.adopt e r c).parent x
    = if x = c then some r else k.parent x := by
  simp [Kin.adopt]

theorem Kin.adopt_optr (hne : r ≠ e) : (k.adopt e r c).optr x
    = if x = c then k.cptr r else k.optr x := by
  simp [Kin.adopt, hne]

theorem Kin.adopt_yptr (hne : r ≠ e) : (k.adopt e r c).yptr x
    = if k.cptr r = some x then some c
      else if x = c then none else k.yptr x := by
  simp [Kin.adopt, hne]

/-- The youngest child of `e` becomes the youngest child of `r`. -/
theorem Family.adopt (h : Family k live {e} root children) (he : e ∈ live)
    (hr : r ∈ live) (hne : r ≠ e) (hch : children e = c :: suf) :
    Family (k.adopt e r c) live {e} root
      (Function.update (Function.update children e suf) r
        (c :: children r)) := by
  have hce : c ∈ children e := by
    rw [hch]
    exact List.mem_cons_self
  obtain ⟨hc, hcroot, hparent⟩ := h.child e he c hce
  have hcr : c ∉ children r := fun hm =>
    hne (h.parent_unique hr he hm hce)
  have hnd := h.nodup e he
  rw [hch] at hnd
  obtain ⟨hcsuf, hndsuf⟩ := List.nodup_cons.1 hnd
  have holder := h.older e he
  rw [hch] at holder
  have hsufe : ∀ x ∈ suf, x ∈ children e := by
    intro x hx
    rw [hch]
    exact List.mem_cons_of_mem c hx
  have hcother : ∀ q ∈ live, q ≠ e → c ∉ children q :=
    fun q hq hqe hm => hqe (h.parent_unique hq he hm hce)
  have hfront : ∀ q ∈ live, q ≠ r → ∀ x ∈ children q, k.cptr r ≠ some x := by
    intro q hq hqr x hx heq
    rw [h.head r hr] at heq
    exact hqr (h.parent_unique hq hr hx (List.mem_of_mem_head? heq))
  have hold : ∀ xs, Older k xs none → c ∉ xs →
      Older (k.adopt e r c) xs none :=
    fun xs ho hm => ho.congr fun x hx => by
      have hxc : x ≠ c := fun heq => hm (heq ▸ hx)
      rw [Kin.adopt_optr hne, if_neg hxc]
  refine ⟨fun q hq => ?_, fun q hq => ?_, fun q hq hqe => ?_, fun q hq => ?_,
    fun q hq x hx => ?_, fun x hx hxne => ?_⟩
  · rw [Kin.adopt_cptr hne, Function.update_apply]
    split
    · rfl
    · rw [Function.update_apply]
      split
      · rw [holder.1, Option.or_none]
      · exact h.head q hq
  · rw [Function.update_apply]
    split
    · refine ⟨?_, hold _ (h.older r hr) hcr⟩
      rw [Kin.adopt_optr hne, if_pos rfl, h.head r hr, Option.or_none]
    · rw [Function.update_apply]
      split
      · exact hold _ holder.2 hcsuf
      case isFalse hqe => exact hold _ (h.older q hq) (hcother q hq hqe)
  · have hqe : q ≠ e := hqe
    rw [Function.update_apply]
    split
    case isTrue hqr =>
        have hcself : k.cptr r ≠ some c := by
          intro heq
          rw [h.head r hr] at heq
          exact hcr (List.mem_of_mem_head? heq)
        refine ⟨by rw [Kin.adopt_yptr hne, if_neg hcself, if_pos rfl], ?_⟩
        have hyoung := h.younger r hr hne
        have hhead := h.head r hr
        have hndr := h.nodup r hr
        cases hchr : children r with
        | nil => trivial
        | cons d ds =>
            rw [hchr] at hyoung hhead hndr
            refine hyoung.redirect ?_ fun x hx => ?_
            · have hd : k.cptr r = some d := hhead
              rw [Kin.adopt_yptr hne, if_pos hd]
            · have hxd : k.cptr r ≠ some x := by
                rw [hhead]
                intro heq
                exact (List.nodup_cons.1 hndr).1
                  ((Option.some.inj heq).symm ▸ hx)
              have hxc : x ≠ c := by
                rintro rfl
                exact hcr (by rw [hchr]; exact List.mem_cons_of_mem d hx)
              rw [Kin.adopt_yptr hne, if_neg hxd, if_neg hxc]
    case isFalse hqr =>
        rw [Function.update_of_ne hqe]
        refine (h.younger q hq hqe).congr fun x hx => ?_
        have hxc : x ≠ c := fun heq => hcother q hq hqe (heq ▸ hx)
        rw [Kin.adopt_yptr hne, if_neg (hfront q hq hqr x hx), if_neg hxc]
  · rw [Function.update_apply]
    split
    · exact List.nodup_cons.2 ⟨hcr, h.nodup r hr⟩
    · rw [Function.update_apply]
      split
      · exact hndsuf
      · exact h.nodup q hq
  · rw [Kin.adopt_parent]
    have hkeep : ∀ q ∈ live, ∀ x ∈ children q, x ≠ c → x ∈ live ∧ x ≠ root
        ∧ (if x = c then some r else k.parent x) = some q := by
      intro q hq x hx hxc
      rw [if_neg hxc]
      exact h.child q hq x hx
    rw [Function.update_apply] at hx
    split at hx
    case isTrue hqr =>
        rw [hqr]
        rcases List.mem_cons.1 hx with hxc | hx
        · rw [hxc, if_pos rfl]
          exact ⟨hc, hcroot, rfl⟩
        · exact hkeep r hr x hx fun heq => hcr (heq ▸ hx)
    case isFalse hqr =>
        rw [Function.update_apply] at hx
        split at hx
        case isTrue hqe =>
            rw [hqe]
            exact hkeep e he x (hsufe x hx) fun heq => hcsuf (heq ▸ hx)
        case isFalse hqe =>
            exact hkeep q hq x hx fun heq => hcother q hq hqe (heq ▸ hx)
  · obtain ⟨q, hq, hxq⟩ := h.parent x hx hxne
    by_cases hxc : x = c
    · refine ⟨r, hr, ?_⟩
      rw [hxc, Function.update_self]
      exact List.mem_cons_self
    · refine ⟨q, hq, ?_⟩
      rw [Function.update_apply]
      split
      case isTrue hqr => exact List.mem_cons_of_mem c (hqr ▸ hxq)
      case isFalse =>
          rw [Function.update_apply]
          split
          case isTrue hqe =>
              rw [hqe, hch] at hxq
              exact (List.mem_cons.1 hxq).resolve_left hxc
          case isFalse => exact hxq

end Ucore
