/-
kern/mm/vmm.c: the kernel's access to user memory.

User memory gives the byte at an address, or nothing where a read faults;
then so does the function that reads. `dst` of `copy_string` is an address
of the kernel's own memory.
-/
import Ucore.Mm.Proofs.Vmm

namespace Ucore.Mm

/-- `VM_STACK`. -/
def vmStack : Nat := 0x8

/-- `KERNBASE`. -/
def kernbase : Nat := 0xFFFFFFFFC0200000
/-- `KERNTOP`: `KERNBASE + KMEMSIZE`. -/
def kerntop : Nat := kernbase + 0x7E00000

/-- `KERN_ACCESS`. -/
def kernAccess (start last : Nat) : Prop :=
  kernbase ≤ start ∧ start < last ∧ last ≤ kerntop

instance (start last : Nat) : Decidable (kernAccess start last) :=
  inferInstanceAs (Decidable (_ ∧ _))

-- ==================================================== user_mem_check

/-- An area that is found has the address. -/
theorem findVma_has {mm mm' : MmStruct} {vma : Vma} {addr : Nat}
    (h : findVma mm addr = (some vma, mm')) : vma.Has addr := by
  rw [findVma_eq] at h
  exact (candidate_some (congrArg Prod.fst h)).1

/-- The flag an access needs: `write ? VM_WRITE : VM_READ`. -/
def accessFlag (write : Bool) : Nat := if write then vmWrite else vmRead

/-- The loop of `user_mem_check`. -/
def memCheckLoop (mm : MmStruct) (start last : Nat) (write : Bool) :
    Bool × MmStruct :=
  if start < last then
    match _h : findVma mm start with
    | (none, mm) => (false, mm)
    | (some vma, mm) =>
        if start < vma.vmStart then (false, mm)
        else if ¬ hasFlag vma.vmFlags (accessFlag write) then (false, mm)
        else if write ∧ hasFlag vma.vmFlags vmStack
            ∧ start < (vma.vmStart + pgsize) % 2 ^ 64 then (false, mm)
        else memCheckLoop mm vma.vmEnd last write
  else (true, mm)
termination_by last - start
decreasing_by
  have hhas : _ ∧ start < vma.vmEnd := findVma_has _h
  omega

/-- `user_mem_check`. -/
def userMemCheck (mm : Option MmStruct) (addr len : Nat) (write : Bool) :
    Bool × Option MmStruct :=
  let last := (addr + len) % 2 ^ 64
  match mm with
  | some mm =>
      if userAccess addr last then
        let (ok, mm) := memCheckLoop mm addr last write
        (ok, some mm)
      else (false, some mm)
  | none => (decide (kernAccess addr last), none)

-- ======================================================= copy_string

/-- `strnlen` of the string at `s`. -/
def strnlen (mem : Nat → Option UInt8) (s : Nat) : (len : Nat) → Option Nat
  | 0 => some 0
  | len + 1 =>
      match mem s with
      | none => none
      | some c =>
          if c = 0 then some 0
          else
            match strnlen mem (s + 1) len with
            | none => none
            | some cnt => some (cnt + 1)

/-- `memcpy` from user memory into kernel memory. -/
def memcpy (mem : Nat → Option UInt8) (kmem : Nat → UInt8) (dst src : Nat) :
    (n : Nat) → Option (Nat → UInt8)
  | 0 => some kmem
  | n + 1 =>
      match mem src with
      | none => none
      | some c =>
          memcpy mem (Function.update kmem dst c) (dst + 1) (src + 1) n

/-- A range that passes the check is not empty. -/
theorem pos_of_userMemCheck {mm mm' : Option MmStruct} {addr len : Nat}
    {write : Bool} (h : userMemCheck mm addr len write = (true, mm')) :
    0 < len := by
  have hlt : addr < (addr + len) % 2 ^ 64 := by
    cases mm with
    | some mm =>
        by_cases huser : userAccess addr ((addr + len) % 2 ^ 64)
        · exact huser.2.1
        · have hfalse : userMemCheck (some mm) addr len write
              = (false, some mm) := if_neg huser
          rw [hfalse] at h
          cases h
    | none => exact (of_decide_eq_true (congrArg Prod.fst h)).2.1
  have hle := Nat.mod_le (addr + len) (2 ^ 64)
  omega

/-- The loop of `copy_string`. -/
def copyStringLoop (mem : Nat → Option UInt8) (mm : Option MmStruct)
    (kmem : Nat → UInt8) (dst src maxn part : Nat) :
    Option (Bool × Option MmStruct × (Nat → UInt8)) :=
  let part := if maxn < part then maxn else part
  match _h : userMemCheck mm src part false with
  | (false, mm) => some (false, mm, kmem)
  | (true, mm) =>
      match strnlen mem src part with
      | none => none
      | some alen =>
          if alen < part then
            match memcpy mem kmem dst src (alen + 1) with
            | none => none
            | some kmem => some (true, mm, kmem)
          else if part = maxn then some (false, mm, kmem)
          else
            match memcpy mem kmem dst src part with
            | none => none
            | some kmem =>
                copyStringLoop mem mm kmem (dst + part) (src + part) (maxn - part)
                  pgsize
termination_by maxn
decreasing_by
  have hpos : 0 < part := pos_of_userMemCheck _h
  have hle : part ≤ maxn := by
    show (if maxn < _ then maxn else _) ≤ maxn
    split <;> omega
  omega

/-- `copy_string`. -/
def copyString (mem : Nat → Option UInt8) (mm : Option MmStruct)
    (kmem : Nat → UInt8) (dst src maxn : Nat) :
    Option (Bool × Option MmStruct × (Nat → UInt8)) :=
  copyStringLoop mem mm kmem dst src maxn
    ((rounddown ((src + pgsize) % 2 ^ 64) pgsize + 2 ^ 64 - src) % 2 ^ 64)

end Ucore.Mm
