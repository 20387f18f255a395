/-
kern/mm/mmu.h and kern/mm/memlayout.h: the Sv39 page table layout.

Addresses and page table entries are 64-bit words held as numbers. A
physical page is named by its page frame number, so `page2ppn` and its
inverse do not appear: `pages[i]` is frame `nbase + i`.
-/
import Mathlib.Data.Nat.Bitwise

namespace Ucore

-- ================================================== page table flags

/-- `PTE_V`: valid. -/
def pteV : Nat := 0x001
/-- `PTE_R`: read. -/
def pteR : Nat := 0x002
/-- `PTE_W`: write. -/
def pteW : Nat := 0x004
/-- `PTE_X`: execute. -/
def pteX : Nat := 0x008
/-- `PTE_U`: user. -/
def pteU : Nat := 0x010
/-- `READ_WRITE`. -/
def readWrite : Nat := pteR ||| pteW ||| pteV
/-- `PTE_USER`. -/
def pteUser : Nat := pteR ||| pteW ||| pteX ||| pteU ||| pteV

/-- `pte & flag`, as a condition. -/
def hasFlag (pte flag : Nat) : Prop := pte &&& flag ≠ 0

instance (pte flag : Nat) : Decidable (hasFlag pte flag) :=
  inferInstanceAs (Decidable (_ ≠ _))

-- ============================================== addresses and layout

/-- `PGSIZE`. -/
def pgsize : Nat := 4096
/-- `PTSIZE`: what one page table maps. -/
def ptsize : Nat := pgsize * 512
/-- `PDSIZE`: what one directory of page tables maps. -/
def pdsize : Nat := ptsize * 512

/-- `PDX1`. -/
def pdx1 (la : Nat) : Nat := (la >>> 30) &&& 0x1FF
/-- `PDX0`. -/
def pdx0 (la : Nat) : Nat := (la >>> 21) &&& 0x1FF
/-- `PTX`. -/
def ptx (la : Nat) : Nat := (la >>> 12) &&& 0x1FF
/-- `PPN`. -/
def ppn (la : Nat) : Nat := la >>> 12
/-- `PGOFF`. -/
def pgoff (la : Nat) : Nat := la &&& 0xFFF

/-- `PTE_ADDR`, also `PDE_ADDR`: the ten flag bits are cleared and the
frame number moved to its place in an address. -/
def pteAddr (pte : Nat) : Nat := ((pte >>> 10 <<< 10) <<< 2) % 2 ^ 64

/-- `pte_create`. -/
def pteCreate (ppn type : Nat) : Nat := (ppn <<< 10) ||| pteV ||| type

/-- `ROUNDDOWN`. -/
def rounddown (a n : Nat) : Nat := a - a % n

/-- `ROUNDUP`; the sum wraps. -/
def roundup (a n : Nat) : Nat := rounddown ((a + n - 1) % 2 ^ 64) n

/-- `nbase`: the first frame of memory, `DRAM_BASE / PGSIZE`. -/
def nbase : Nat := 0x80000

/-- `npage`, as `page_init` sets it: `PHYSICAL_MEMORY_END / PGSIZE`. -/
def npage : Nat := 0x88000

/-- `USERBASE`. -/
def userbase : Nat := 0x00200000
/-- `USERTOP`. -/
def usertop : Nat := 0x80000000

/-- `USER_ACCESS`. -/
def userAccess (start last : Nat) : Prop :=
  userbase ≤ start ∧ start < last ∧ last ≤ usertop

instance (start last : Nat) : Decidable (userAccess start last) :=
  inferInstanceAs (Decidable (_ ∧ _))

-- ================================== entries that `pte_create` builds

/-- The frame a valid entry names. -/
def frameOf (pte : Nat) : Option Nat :=
  if hasFlag pte pteV then some (ppn (pteAddr pte)) else none

theorem hasFlag_zero (flag : Nat) : ¬ hasFlag 0 flag := by
  simp [hasFlag]

@[simp] theorem frameOf_zero : frameOf 0 = none := by
  simp [frameOf, hasFlag_zero]

theorem frameOf_eq_none_iff {pte : Nat} :
    frameOf pte = none ↔ ¬ hasFlag pte pteV := by
  unfold frameOf
  split <;> simp_all

/-- An entry is valid when its lowest bit is set. -/
theorem hasFlag_pteV {pte : Nat} : hasFlag pte pteV ↔ pte % 2 = 1 := by
  unfold hasFlag pteV
  rw [Nat.and_one_is_mod]
  omega

/-- The flag bits of a created entry are the type's, and `PTE_V`. -/
theorem pteCreate_mod {p type : Nat} (htype : type < 2 ^ 10) :
    pteCreate p type % 2 ^ 10 = pteV ||| type := by
  have hlow : pteV ||| type < 2 ^ 10 :=
    Nat.or_lt_two_pow (by decide) htype
  unfold pteCreate
  rw [Nat.or_assoc, Nat.or_mod_two_pow, Nat.shiftLeft_eq,
    Nat.mul_mod_left, Nat.zero_or, Nat.mod_eq_of_lt hlow]

/-- The frame bits of a created entry are the frame's. -/
theorem pteCreate_shiftRight {p type : Nat} (htype : type < 2 ^ 10) :
    pteCreate p type >>> 10 = p := by
  have hlow : pteV ||| type < 2 ^ 10 :=
    Nat.or_lt_two_pow (by decide) htype
  unfold pteCreate
  rw [Nat.or_assoc, Nat.shiftRight_or_distrib, Nat.shiftLeft_shiftRight,
    Nat.shiftRight_eq_div_pow, Nat.div_eq_of_lt hlow, Nat.or_zero]

/-- A created entry is valid. -/
theorem hasFlag_pteCreate {p type : Nat} (htype : type < 2 ^ 10) :
    hasFlag (pteCreate p type) pteV := by
  have hmod := pteCreate_mod (p := p) htype
  have hor : (pteV ||| type) % 2 = 1 := by
    have := Nat.or_mod_two_pow (a := pteV) (b := type) (n := 1)
    have h1 : pteV % 2 ^ 1 = 1 := rfl
    rw [h1] at this
    rcases Nat.mod_two_eq_zero_or_one type with h | h <;>
      · simp only [Nat.pow_one, h] at this
        exact this
  rw [hasFlag_pteV]
  omega

/-- A created entry names the frame it was created for. -/
theorem frameOf_pteCreate {p type : Nat} (hp : p < 2 ^ 52)
    (htype : type < 2 ^ 10) : frameOf (pteCreate p type) = some p := by
  rw [frameOf, if_pos (hasFlag_pteCreate htype)]
  congr 1
  unfold ppn pteAddr
  rw [pteCreate_shiftRight htype, Nat.shiftLeft_eq, Nat.shiftLeft_eq,
    Nat.shiftRight_eq_div_pow]
  omega

-- ================================================= flags of an entry

/-- A flag is one bit of the entry. -/
theorem hasFlag_iff_testBit (pte k : Nat) :
    hasFlag pte (2 ^ k) ↔ pte.testBit k = true := by
  unfold hasFlag
  rw [Nat.and_two_pow]
  cases pte.testBit k <;> simp

theorem hasFlag_pteR {pte : Nat} : hasFlag pte pteR ↔ pte.testBit 1 = true :=
  hasFlag_iff_testBit pte 1

theorem hasFlag_pteW {pte : Nat} : hasFlag pte pteW ↔ pte.testBit 2 = true :=
  hasFlag_iff_testBit pte 2

theorem hasFlag_pteU {pte : Nat} : hasFlag pte pteU ↔ pte.testBit 4 = true :=
  hasFlag_iff_testBit pte 4

/-- The flags of a created entry are those of its type. -/
theorem testBit_pteCreate {p type k : Nat} (hk : k < 10) (hk0 : k ≠ 0) :
    (pteCreate p type).testBit k = type.testBit k := by
  have hv : pteV.testBit k = false := by
    unfold pteV
    rw [Nat.testBit_eq_false_of_lt]
    calc 1 < 2 ^ 1 := by decide
      _ ≤ 2 ^ k := Nat.pow_le_pow_right (by decide) (by omega)
  unfold pteCreate
  rw [Nat.testBit_or, Nat.testBit_or, Nat.testBit_shiftLeft, hv,
    decide_eq_false (by omega)]
  simp

/-- Setting a flag keeps the frame. -/
theorem frameOf_or {pte flag : Nat} (hflag : flag < 2 ^ 10)
    (hv : hasFlag pte pteV) : frameOf (pte ||| flag) = frameOf pte := by
  have hv' : hasFlag (pte ||| flag) pteV := by
    unfold hasFlag at *
    rw [Nat.and_or_distrib_right]
    intro hzero
    exact hv (Nat.or_eq_zero_iff.mp hzero).1
  have hshift : (pte ||| flag) >>> 10 = pte >>> 10 := by
    rw [Nat.shiftRight_or_distrib, Nat.shiftRight_eq_div_pow flag,
      Nat.div_eq_of_lt hflag, Nat.or_zero]
  rw [frameOf, frameOf, if_pos hv, if_pos hv', pteAddr, pteAddr, hshift]

-- =========================================================== indices

theorem pdx1_eq (la : Nat) : pdx1 la = la / 2 ^ 30 % 512 := by
  unfold pdx1
  rw [Nat.shiftRight_eq_div_pow]
  exact Nat.and_two_pow_sub_one_eq_mod _ 9

theorem pdx0_eq (la : Nat) : pdx0 la = la / 2 ^ 21 % 512 := by
  unfold pdx0
  rw [Nat.shiftRight_eq_div_pow]
  exact Nat.and_two_pow_sub_one_eq_mod _ 9

theorem ptx_eq (la : Nat) : ptx la = la / 2 ^ 12 % 512 := by
  unfold ptx
  rw [Nat.shiftRight_eq_div_pow]
  exact Nat.and_two_pow_sub_one_eq_mod _ 9

theorem pgoff_eq (la : Nat) : pgoff la = la % pgsize :=
  Nat.and_two_pow_sub_one_eq_mod la 12

/-- User addresses lie below the root entry that maps the kernel. -/
theorem pdx1_user {la : Nat} (h : la < usertop) : pdx1 la < 511 := by
  rw [pdx1_eq]
  unfold usertop at h
  omega

/-- One page table maps the addresses up to the next multiple of
`PTSIZE`. -/
theorem pdx_of_lt_rounddown {a b : Nat} (hab : a ≤ b)
    (hb : b < rounddown (a + ptsize) ptsize) :
    pdx1 b = pdx1 a ∧ pdx0 b = pdx0 a := by
  have hdiv : b / 2 ^ 21 = a / 2 ^ 21 := by
    have hpt : ptsize = 2097152 := rfl
    rw [rounddown, hpt] at hb
    omega
  have h30 : ∀ c : Nat, c / 2 ^ 30 = c / 2 ^ 21 / 2 ^ 9 := by
    intro c
    omega
  rw [pdx1_eq, pdx1_eq, pdx0_eq, pdx0_eq, h30, h30, hdiv]
  exact ⟨rfl, rfl⟩

/-- The next multiple of `PTSIZE` is a page boundary a page or more
away. -/
theorem rounddown_next {a : Nat} (ha : a % pgsize = 0) :
    a + pgsize ≤ rounddown (a + ptsize) ptsize
      ∧ rounddown (a + ptsize) ptsize % pgsize = 0 := by
  have hpt : ptsize = 2097152 := rfl
  rw [rounddown, hpt]
  unfold pgsize at *
  omega

/-- An address and the start of its page. -/
theorem rounddown_page (va : Nat) :
    rounddown va pgsize / pgsize = va / pgsize := by
  unfold rounddown pgsize
  omega

/-- The indices of an address are those of its page. -/
theorem indices_of_page {a b : Nat} (h : a / pgsize = b / pgsize) :
    pdx1 a = pdx1 b ∧ pdx0 a = pdx0 b ∧ ptx a = ptx b := by
  have h12 : a / 2 ^ 12 = b / 2 ^ 12 := h
  have h21 : ∀ c : Nat, c / 2 ^ 21 = c / 2 ^ 12 / 2 ^ 9 := by
    intro c
    omega
  have h30 : ∀ c : Nat, c / 2 ^ 30 = c / 2 ^ 12 / 2 ^ 18 := by
    intro c
    omega
  rw [pdx1_eq, pdx1_eq, pdx0_eq, pdx0_eq, ptx_eq, ptx_eq, h30, h30, h21, h21,
    h12]
  exact ⟨rfl, rfl, rfl⟩

/-- Below the kernel's half the indices determine the page. -/
theorem page_of_indices {a b : Nat} (ha : a < 2 ^ 39) (hb : b < 2 ^ 39)
    (h1 : pdx1 a = pdx1 b) (h0 : pdx0 a = pdx0 b) (ht : ptx a = ptx b) :
    a / pgsize = b / pgsize := by
  rw [pdx1_eq, pdx1_eq] at h1
  rw [pdx0_eq, pdx0_eq] at h0
  rw [ptx_eq, ptx_eq] at ht
  unfold pgsize
  omega

theorem pdx0_lt (la : Nat) : pdx0 la < 512 :=
  Nat.lt_of_le_of_lt Nat.and_le_right (by decide)

theorem ptx_lt (la : Nat) : ptx la < 512 :=
  Nat.lt_of_le_of_lt Nat.and_le_right (by decide)

end Ucore
