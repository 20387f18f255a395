/-
The two calls of alloc_proc in do_fork: the `proc_struct` of the first is
in no table, so nothing ever frees it. A do_fork that fails leaves it
behind, and so does one that succeeds, when the child has been reaped.
-/
import Ucore.Process.Proofs.System

namespace Ucore.Process

variable {ν : Type} [DecidableEq ν] {A : Memory ν} {R : Roster ν}
  {w w' w₁ w₂ w₃ : World A} {p init b : ν} {fuel : Nat} {flags : BitVec 32}
  {ls ls' : List (Label ν)} {ret : Int}

/-- What a block allocated to no process keeps over a run. -/
theorem Inv.kept_run (hrun : Run Step w ls w') (h : Inv w R init)
    (hb : b ∈ A.live w.kernel.mem) (hbm : b ∉ R.members) :
    b ∈ A.live w'.kernel.mem := by
  induction hrun generalizing R with
  | nil w => exact hb
  | cons hs _ ih =>
      obtain ⟨R', hinv, hkept, -⟩ := h.step hs
      obtain ⟨hb', hbm'⟩ := hkept b hb hbm
      exact ih hinv hb' hbm'

/-- A do_fork below the limit of processes allocates a block that it leaves
to no process. -/
theorem Inv.fork_leaks {s : State A} (h : Inv w R init)
    (hruns : Runs w.kernel p) (hmax : w.kernel.nrProcess < maxProcess)
    (hcall : doFork fuel p flags w.kernel = some (ret, s)) :
    ∃ b R', b ∉ A.live w.kernel.mem ∧ b ∈ A.live s.mem ∧ b ∉ R'.members
      ∧ Inv { w with kernel := s } R' init := by
  have hp := h.runs_mem hruns
  obtain ⟨b, hbnot, hforked⟩ := doFork_leaks h.tables hp hmax hcall
  have hS : R.members ⊆ insert b (A.live w.kernel.mem) := fun q hq =>
    Set.mem_insert_of_mem b (h.tables.live q hq)
  obtain ⟨R', hinv, -, hnew⟩ := h.fork hp hruns.state hS hforked
  refine ⟨b, R', hbnot, hforked.live (Set.mem_insert b _), fun hin => ?_,
    hinv⟩
  rcases hnew b hin with hold | hout
  · exact hbnot (h.tables.live b hold)
  · exact hout.2 (Set.mem_insert b _)

-- ================================================= a fork that fails

/-- do_fork returns an error, and leaves the blocks allocated, the lists and
the number of processes as they were. -/
def FailsCleanly (fuel : Nat) (current : ν) (flags : BitVec 32)
    (s : State A) : Prop :=
  ∃ ret s', doFork fuel current flags s = some (ret, s') ∧ ret < 0
    ∧ A.live s'.mem = A.live s.mem ∧ s'.links = s.links
    ∧ s'.nrProcess = s.nrProcess

/-- No do_fork that comes to its allocations fails cleanly, whichever of
them fails. -/
theorem fork_not_atomic (hstart : Start w) (hrun : Run Step w ls w')
    (hruns : Runs w'.kernel p) (hmax : w'.kernel.nrProcess < maxProcess) :
    ¬ FailsCleanly fuel p flags w'.kernel := by
  intro hclean
  obtain ⟨ret, s', hcall, -, hlive, -⟩ := hclean
  obtain ⟨R, init, hinv, -⟩ := hstart.run hrun
  obtain ⟨b, R', hbnot, hb, -⟩ := hinv.fork_leaks hruns hmax hcall
  rw [hlive] at hb
  exact hbnot hb

/-- With one kernel stack, which init has, a do_fork of init fails. -/
theorem booted_one_start : Start (booted 1) where
  init := ⟨boot 1, 3, 0, rfl, rfl, rfl, rfl, rfl,
    leaves_eq (by decide +kernel)⟩
  waits _ := rfl

theorem booted_one_runs : Runs (booted 1).kernel 3 := by
  obtain ⟨R, init, hinv, -⟩ := booted_one_start.run (.nil (booted 1))
  exact ⟨.inr (hinv.listed_of_find 4 1 (by decide +kernel)), by decide +kernel⟩

theorem fork_not_atomic_kstack : ¬ FailsCleanly 4 3 0 (booted 1).kernel :=
  fork_not_atomic booted_one_start (.nil (booted 1)) booted_one_runs
    (by decide +kernel)

/-- The kernel stack cannot be allocated: do_fork returns -E_NO_MEM and
leaves the `proc_struct` 4 allocated. -/
theorem kstack_fails : (booted 1).kernel.mem.2 = 0
    ∧ (doFork 4 3 0 (booted 1).kernel).map Prod.fst = some eNoMem
    ∧ (booted 1).kernel.mem.1 = [3, 2, 1]
    ∧ (leaves (doFork 4 3 0) (booted 1).kernel).mem.1 = [4, 3, 2, 1]
    ∧ ¬ FailsCleanly 4 3 0 (booted 1).kernel := by
  have hret : (doFork 4 3 0 (booted 1).kernel).map Prod.fst = some eNoMem := by
    decide +kernel
  have hbefore : (booted 1).kernel.mem.1 = [3, 2, 1] := by decide +kernel
  have hafter : (leaves (doFork 4 3 0) (booted 1).kernel).mem.1
      = [4, 3, 2, 1] := by decide +kernel
  refine ⟨by decide +kernel, hret, hbefore, hafter, fun hclean => ?_⟩
  obtain ⟨ret, s', hcall, -, hlive, -⟩ := hclean
  rw [leaves_eq hret, Option.some.injEq, Prod.mk.injEq] at hcall
  have hin : (4 : Nat) ∈ (leaves (doFork 4 3 0) (booted 1).kernel).mem.1 := by
    rw [hafter]
    decide
  have hout : (4 : Nat) ∉ (booted 1).kernel.mem.1 := by
    rw [hbefore]
    decide
  rw [← hcall.2] at hlive
  exact hout (hlive ▸ hin : (4 : Nat) ∈ smallMemory.live (booted 1).kernel.mem)

-- ============================================== a fork that succeeds

/-- What a fork, from `w₁` to `w₂`, acquired has been returned in `w₃`. -/
def Returned (w₁ w₂ w₃ : World A) : Prop :=
  ∀ b ∈ A.live w₂.kernel.mem, b ∉ A.live w₁.kernel.mem →
    b ∉ A.live w₃.kernel.mem

/-- What a successful do_fork acquired is never all returned, in whatever run
follows: its child may run, exit and be reaped. -/
theorem fork_never_returned (hstart : Start w) (hrun : Run Step w ls w₁)
    (hfork : Step w₁ (.fork p flags ret) w₂) (hret : 0 < ret)
    (hrun' : Run Step w₂ ls' w₃) : ¬ Returned w₁ w₂ w₃ := by
  intro hreturned
  obtain ⟨R, init, hinv, -⟩ := hstart.run hrun
  cases hfork with
  | @fork _ fuel _ _ s hruns hpc hcall =>
      have hmax : w₁.kernel.nrProcess < maxProcess := by
        by_contra hge
        simp only [doFork, Call.bind_eq_some, Call.get_eq_some] at hcall
        obtain ⟨s₁, s₂, ⟨rfl, rfl⟩, hcall⟩ := hcall
        rw [if_pos (by omega), Call.pure_eq_some] at hcall
        rw [hcall.1] at hret
        exact absurd hret (by decide)
      obtain ⟨b, R', hbnot, hb, hbm, hinv'⟩ :=
        hinv.fork_leaks hruns hmax hcall
      exact hreturned b hb hbnot (hinv'.kept_run hrun' hb hbm)

theorem fork_never_returned_reaped :
    ¬ Returned (booted 2) ⟨forkedKernel, fun _ => none⟩
      ⟨reapedKernel, fun _ => none⟩ :=
  fork_never_returned booted_start (.nil (booted 2)) small_fork (by decide)
    (.cons small_exit (.single small_reap))

/-- The child of the small run exits and is reaped, and of the blocks that
the fork allocated, 4 and 5, the block 4 stays. -/
theorem reaped_leak : Start (booted 2)
    ∧ Step (booted 2) (.fork 3 0 2) ⟨forkedKernel, fun _ => none⟩
    ∧ Run Step ⟨forkedKernel, fun _ => none⟩
      [.exit 5 7, .wait 3 0 (some 0) (.reaped 5 (some 7))]
      ⟨reapedKernel, fun _ => none⟩
    ∧ (booted 2).kernel.mem.1 = [3, 2, 1]
    ∧ forkedKernel.mem.1 = [5, 4, 3, 2, 1]
    ∧ reapedKernel.mem.1 = [4, 3, 2, 1]
    ∧ ¬ Returned (booted 2) ⟨forkedKernel, fun _ => none⟩
      ⟨reapedKernel, fun _ => none⟩ := by
  have hbefore : (booted 2).kernel.mem.1 = [3, 2, 1] := by decide +kernel
  have hforked : forkedKernel.mem.1 = [5, 4, 3, 2, 1] := by decide +kernel
  have hreaped : reapedKernel.mem.1 = [4, 3, 2, 1] := by decide +kernel
  refine ⟨booted_start, small_fork, .cons small_exit (.single small_reap),
    hbefore, hforked, hreaped, fun hreturned => ?_⟩
  refine hreturned 4 ?_ ?_ ?_
  · show 4 ∈ forkedKernel.mem.1
    rw [hforked]
    decide
  · show 4 ∉ (booted 2).kernel.mem.1
    rw [hbefore]
    decide
  · show 4 ∈ reapedKernel.mem.1
    rw [hreaped]
    decide

end Ucore.Process
