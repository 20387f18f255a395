/-
What the functions of proc.c that edit links do: to the family pointers,
the operations of a family; to the list entries, those of list.h; to the
other fields of a process, nothing.
-/
import Ucore.Lib.Family
import Ucore.Process.Proc

namespace Ucore.Process

open Ring

variable {ν : Type} [DecidableEq ν] {A : Memory ν} {s s' : State A}
  {p q c proc current : ν} {x : Unit}

/-- The family pointers. -/
def kin (s : State A) : Kin ν where
  parent p := (s.procs p).parent
  cptr p := (s.procs p).cptr
  yptr p := (s.procs p).yptr
  optr p := (s.procs p).optr

/-- What a process is apart from its family pointers. -/
structure Body (μ : Type) where
  state : ProcState
  pid : Int
  kstack : Nat
  mm : Option μ
  exiting : Bool
  exitCode : Int
  waitState : BitVec 32

/-- The fields of a process that are not family pointers. -/
def body (s : State A) (p : ν) : Body A.Mm :=
  let q := s.procs p
  ⟨q.state, q.pid, q.kstack, q.mm, q.exiting, q.exitCode, q.waitState⟩

/-- The other variables are as they were. -/
structure SameVars (s s' : State A) : Prop where
  lastPid : s'.lastPid = s.lastPid
  nextSafe : s'.nextSafe = s.nextSafe
  idleproc : s'.idleproc = s.idleproc
  initproc : s'.initproc = s.initproc

theorem SameVars.refl (s : State A) : SameVars s s := ⟨rfl, rfl, rfl, rfl⟩

theorem SameVars.trans {s'' : State A} (h : SameVars s s')
    (h' : SameVars s' s'') : SameVars s s'' :=
  ⟨h'.lastPid.trans h.lastPid, h'.nextSafe.trans h.nextSafe,
    h'.idleproc.trans h.idleproc, h'.initproc.trans h.initproc⟩

-- =============================================== one field at a time

section Update

variable (s : State A) (p q : ν)
  (f : ProcStruct ν A.Mm → ProcStruct ν A.Mm)

theorem update_procs : (s.update p f).procs q
    = if q = p then f (s.procs p) else s.procs q := by
  rw [State.update]
  exact Function.update_apply _ _ _ _

@[simp] theorem update_links : (s.update p f).links = s.links := rfl
@[simp] theorem update_mem : (s.update p f).mem = s.mem := rfl
@[simp] theorem update_nrProcess :
    (s.update p f).nrProcess = s.nrProcess := rfl
@[simp] theorem update_lastPid : (s.update p f).lastPid = s.lastPid := rfl
@[simp] theorem update_nextSafe : (s.update p f).nextSafe = s.nextSafe := rfl
@[simp] theorem update_idleproc : (s.update p f).idleproc = s.idleproc := rfl
@[simp] theorem update_initproc : (s.update p f).initproc = s.initproc := rfl

theorem update_sameVars : SameVars s (s.update p f) := ⟨rfl, rfl, rfl, rfl⟩

variable {f}

/-- A field of a process that is not a family pointer. -/
theorem kin_update
    (hparent : (f (s.procs p)).parent = (s.procs p).parent)
    (hcptr : (f (s.procs p)).cptr = (s.procs p).cptr)
    (hyptr : (f (s.procs p)).yptr = (s.procs p).yptr)
    (hoptr : (f (s.procs p)).optr = (s.procs p).optr) :
    kin (s.update p f) = kin s := by
  unfold kin
  simp only [update_procs, Kin.mk.injEq]
  refine ⟨?_, ?_, ?_, ?_⟩ <;>
    · funext q
      split
      case isTrue hq => rw [hq]; assumption
      case isFalse => rfl

/-- A field of another process. -/
theorem body_update_of_ne (hq : q ≠ p) :
    body (s.update p f) q = body s q := by
  unfold body
  rw [update_procs, if_neg hq]

theorem body_update_self : body (s.update p f) p
    = (let r := f (s.procs p)
      ⟨r.state, r.pid, r.kstack, r.mm, r.exiting, r.exitCode,
        r.waitState⟩) := by
  unfold body
  rw [update_procs, if_pos rfl]

/-- A family pointer. -/
theorem body_update (h : ∀ r : ProcStruct ν A.Mm,
    (f r).state = r.state ∧ (f r).pid = r.pid ∧ (f r).kstack = r.kstack
      ∧ (f r).mm = r.mm ∧ (f r).exiting = r.exiting
      ∧ (f r).exitCode = r.exitCode ∧ (f r).waitState = r.waitState) :
    body (s.update p f) = body s := by
  funext q
  unfold body
  rw [update_procs]
  split
  case isTrue hq =>
      obtain ⟨h1, h2, h3, h4, h5, h6, h7⟩ := h (s.procs p)
      rw [hq]
      simp only [h1, h2, h3, h4, h5, h6, h7]
  case isFalse => rfl

variable (v : Option ν)

theorem kin_setParent :
    kin (s.update p fun q => { q with parent := v })
      = (kin s).setParent p v := by
  simp only [kin, Kin.setParent, Kin.mk.injEq, update_procs]
  refine ⟨?_, ?_, ?_, ?_⟩ <;>
    · funext q
      first
        | rw [Function.update_apply]; split <;> rfl
        | split <;> simp_all

theorem kin_setCptr :
    kin (s.update p fun q => { q with cptr := v })
      = (kin s).setCptr p v := by
  simp only [kin, Kin.setCptr, Kin.mk.injEq, update_procs]
  refine ⟨?_, ?_, ?_, ?_⟩ <;>
    · funext q
      first
        | rw [Function.update_apply]; split <;> rfl
        | split <;> simp_all

theorem kin_setYptr :
    kin (s.update p fun q => { q with yptr := v })
      = (kin s).setYptr p v := by
  simp only [kin, Kin.setYptr, Kin.mk.injEq, update_procs]
  refine ⟨?_, ?_, ?_, ?_⟩ <;>
    · funext q
      first
        | rw [Function.update_apply]; split <;> rfl
        | split <;> simp_all

theorem kin_setOptr :
    kin (s.update p fun q => { q with optr := v })
      = (kin s).setOptr p v := by
  simp only [kin, Kin.setOptr, Kin.mk.injEq, update_procs]
  refine ⟨?_, ?_, ?_, ?_⟩ <;>
    · funext q
      first
        | rw [Function.update_apply]; split <;> rfl
        | split <;> simp_all

end Update

-- ========================================================= set_links

/-- Only family pointers and the counter change, as the last three say. -/
structure Relinks (s s' : State A) (k : Kin ν) (links : Links (Entry ν))
    (nrProcess : Int) : Prop where
  kin : kin s' = k
  links : s'.links = links
  nrProcess : s'.nrProcess = nrProcess
  body : body s' = body s
  mem : s'.mem = s.mem
  vars : SameVars s s'

variable {k k' : Kin ν} {m : Links (Entry ν)} {n : Int} {v o : Option ν}
  {t : State A}

theorem Relinks.refl (s : State A) :
    Relinks s s (Process.kin s) s.links s.nrProcess :=
  ⟨rfl, rfl, rfl, rfl, rfl, .refl s⟩

/-- One more family pointer is stored. -/
theorem Relinks.update {f : ProcStruct ν A.Mm → ProcStruct ν A.Mm}
    (h : Relinks s t k m n)
    (hkin : Process.kin (t.update p f) = k')
    (hbody : ∀ r : ProcStruct ν A.Mm,
      (f r).state = r.state ∧ (f r).pid = r.pid ∧ (f r).kstack = r.kstack
        ∧ (f r).mm = r.mm ∧ (f r).exiting = r.exiting
        ∧ (f r).exitCode = r.exitCode ∧ (f r).waitState = r.waitState) :
    Relinks s (t.update p f) k' m n :=
  ⟨hkin, h.links, h.nrProcess, (body_update t p hbody).trans h.body, h.mem,
    h.vars.trans (update_sameVars t p f)⟩

theorem Relinks.setParent (h : Relinks s t k m n) :
    Relinks s (t.update p fun q => { q with parent := v })
      (k.setParent p v) m n :=
  h.update (by rw [kin_setParent, h.kin]) (by simp)

theorem Relinks.setCptr (h : Relinks s t k m n) :
    Relinks s (t.update p fun q => { q with cptr := v })
      (k.setCptr p v) m n :=
  h.update (by rw [kin_setCptr, h.kin]) (by simp)

theorem Relinks.setYptr (h : Relinks s t k m n) :
    Relinks s (t.update p fun q => { q with yptr := v })
      (k.setYptr p v) m n :=
  h.update (by rw [kin_setYptr, h.kin]) (by simp)

theorem Relinks.setOptr (h : Relinks s t k m n) :
    Relinks s (t.update p fun q => { q with optr := v })
      (k.setOptr p v) m n :=
  h.update (by rw [kin_setOptr, h.kin]) (by simp)

theorem Relinks.storeYptr (h : Relinks s t k m n)
    (hcall : Process.storeYptr o v t = some (x, s')) :
    Relinks s s' (k.setYptrOf o v) m n := by
  cases o with
  | none =>
      rw [Process.storeYptr, Call.pure_eq_some] at hcall
      rw [hcall.2]
      exact h
  | some o =>
      rw [Process.storeYptr, Process.update, Call.modify_eq_some] at hcall
      rw [hcall]
      exact h.setYptr

theorem Relinks.count (h : Relinks s t k m n) (n' : Int) :
    Relinks s { t with nrProcess := n' } k m n' :=
  ⟨h.kin, h.links, rfl, h.body, h.mem, ⟨h.vars.lastPid, h.vars.nextSafe,
    h.vars.idleproc, h.vars.initproc⟩⟩

theorem setLinks_spec (h : setLinks proc s = some (x, s')) :
    ∃ p, (s.procs proc).parent = some p
      ∧ Relinks s s' ((kin s).enter proc p)
        (listAdd s.links .procList (.listLink proc)) (s.nrProcess + 1) := by
  simp only [setLinks, update, Call.bind_eq_some, Call.modify_eq_some,
    Call.get_eq_some, Call.ofOption_eq_some] at h
  obtain ⟨-, s₁, hs₁, -, s₂, hs₂, s₃, s₄, ⟨rfl, rfl⟩, p, s₅,
    ⟨hparent, rfl⟩, -, s₆, hs₆, u, s₇, holder, -, s₈, rfl, rfl⟩ := h
  have h₁ : Relinks s s₁ (kin s) (listAdd s.links .procList
      (.listLink proc)) s.nrProcess := by
    rw [hs₁]
    exact ⟨rfl, rfl, rfl, rfl, rfl, ⟨rfl, rfl, rfl, rfl⟩⟩
  have h₂ := h₁.setYptr (p := proc) (v := none)
  rw [← hs₂] at h₂
  have hp : (kin s₅).parent proc = some p := hparent
  have hcptr : (kin s₅).cptr p = (kin s).cptr p := by
    rw [h₂.kin]
    rfl
  have h₆ := h₂.setOptr (p := proc) (v := (s₅.procs p).cptr)
  rw [← hs₆] at h₆
  have h₇ := h₆.storeYptr holder
  have h₈ := h₇.setCptr (p := p) (v := some proc)
  have hcptr' : (s₅.procs p).cptr = (kin s).cptr p := hcptr
  rw [h₂.kin] at hp
  refine ⟨p, hp, ?_⟩
  rw [Kin.enter_eq, ← hcptr', ← h₇.nrProcess]
  exact h₈.count (s₇.nrProcess + 1)

-- ====================================================== remove_links

/-- A process is not its own older sibling. -/
theorem removeLinks_spec (hp : (s.procs proc).parent = some p)
    (hself : (s.procs proc).optr ≠ some proc)
    (h : removeLinks proc s = some (x, s')) :
    Relinks s s' ((kin s).leave proc p) (listDel s.links (.listLink proc))
      (s.nrProcess - 1) := by
  simp only [removeLinks, Call.bind_eq_some, Call.modify_eq_some,
    Call.get_eq_some] at h
  obtain ⟨-, s₁, hs₁, s₂, s₃, ⟨rfl, rfl⟩, u, s₄, holder, s₅, s₆, ⟨rfl, rfl⟩,
    u', s₇, hyounger, rfl⟩ := h
  have h₁ : Relinks s s₃ (kin s) (listDel s.links (.listLink proc))
      s.nrProcess := by
    rw [hs₁]
    exact ⟨rfl, rfl, rfl, rfl, rfl, ⟨rfl, rfl, rfl, rfl⟩⟩
  have hoptr : (s₃.procs proc).optr = (kin s).optr proc :=
    congrFun (congrArg Kin.optr h₁.kin) proc
  have hyptr : (s₃.procs proc).yptr = (kin s).yptr proc :=
    congrFun (congrArg Kin.yptr h₁.kin) proc
  rw [hoptr, hyptr] at holder
  have h₆ := h₁.storeYptr holder
  have hyptr₆ : (s₆.procs proc).yptr
      = ((kin s).setYptrOf ((kin s).optr proc) ((kin s).yptr proc)).yptr
        proc := congrFun (congrArg Kin.yptr h₆.kin) proc
  have hoptr₆ : (s₆.procs proc).optr = (kin s).optr proc := by
    have hfield := congrFun (congrArg Kin.optr h₆.kin) proc
    rw [Kin.setYptrOf_optr] at hfield
    exact hfield
  have hparent₆ : (s₆.procs proc).parent = some p := by
    have hfield := congrFun (congrArg Kin.parent h₆.kin) proc
    rw [Kin.setYptrOf_parent] at hfield
    exact hfield.trans hp
  have h₇ : Relinks s s₇ ((kin s).leave proc p)
      (listDel s.links (.listLink proc)) s.nrProcess := by
    rw [hyptr₆] at hyounger
    cases hy : ((kin s).setYptrOf ((kin s).optr proc)
        ((kin s).yptr proc)).yptr proc with
    | some y =>
        rw [hy] at hyounger
        simp only [storeOlder, update, Call.bind_eq_some, Call.get_eq_some,
          Call.modify_eq_some] at hyounger
        obtain ⟨s₈, s₉, ⟨rfl, rfl⟩, rfl⟩ := hyounger
        have hset := h₆.setOptr (p := y) (v := (s₉.procs proc).optr)
        rw [Kin.leave_eq_some hy]
        rw [hoptr₆] at hset ⊢
        exact hset
    | none =>
        rw [hy] at hyounger
        simp only [storeOlder, update, Call.bind_eq_some, Call.get_eq_some,
          Call.modify_eq_some, Call.ofOption_eq_some] at hyounger
        obtain ⟨s₈, s₉, ⟨rfl, rfl⟩, q, s₁₀, ⟨hq, rfl⟩, rfl⟩ := hyounger
        rw [hparent₆, Option.some.injEq] at hq
        have hset := h₆.setCptr (p := q) (v := (s₁₀.procs proc).optr)
        rw [Kin.leave_eq_none hy, hq]
        rw [hoptr₆] at hset ⊢
        exact hset
  rw [← h₇.nrProcess]
  exact h₇.count (s₇.nrProcess - 1)

end Ucore.Process
