/-
What the kernel reads and writes of user memory.

`user_mem_check` looks at one address of each area and goes on at the end of
the area. What it finds there holds of the rest of the range in that area:
the flags are the area's, and the guard page of a stack lies at its start
(`memCheckLoop_spec`).

What `copy_string` copies.

A round handles what is left of the page, or of the budget. Areas are page
aligned, so the bytes of a page are all readable or none is: a round whose
check fails has found a byte that the string cannot have before its end
(`Ends.readable`), and a round that finds no end leaves the same question
about the rest of the string (`ends_rest`).
-/
import Ucore.Mm.UserMem
import Ucore.Mm.Proofs.VmaList

namespace Ucore.Mm

variable {mm mm' : MmStruct} {vma : Vma} {addr len start last : Nat}
  {write : Bool}

-- ======================================================= the purpose

/-- A byte lies in an area with a flag. -/
def InArea (vmas : List Vma) (flag a : Nat) : Prop :=
  ∃ vma ∈ vmas, vma.Has a ∧ hasFlag vma.vmFlags flag

/-- A byte lies in the first page of a stack. -/
def InGuard (vmas : List Vma) (a : Nat) : Prop :=
  ∃ vma ∈ vmas, vma.Has a ∧ hasFlag vma.vmFlags vmStack
    ∧ a < vma.vmStart + pgsize

/-- A byte that user code may read, or write. -/
def Granted (vmas : List Vma) (write : Bool) (a : Nat) : Prop :=
  InArea vmas (accessFlag write) a ∧ (write = true → ¬ InGuard vmas a)

-- ======================================================== the lookup

/-- A lookup changes the cache at most. -/
theorem findVma_list {found : Option Vma}
    (hfind : findVma mm addr = (found, mm')) :
    mm'.mmapList = mm.mmapList := by
  have hstate : (findVma mm addr).2 = mm' := congrArg Prod.snd hfind
  rw [← hstate, findVma_eq]

theorem AreaList.found (h : AreaList mm)
    (hfind : findVma mm addr = (some vma, mm')) :
    vma ∈ mm.mmapList ∧ vma.Has addr ∧ AreaList mm' := by
  have hfirst : (findVma mm addr).1 = some vma := congrArg Prod.fst hfind
  obtain ⟨hin, hhas⟩ := (findVma_iff h).1 hfirst
  have hnext : AreaList (findVma mm addr).2 := h.find
  rw [hfind] at hnext
  exact ⟨hin, hhas, hnext⟩

theorem AreaList.missed (h : AreaList mm)
    (hfind : findVma mm addr = (none, mm')) :
    (∀ v ∈ mm.mmapList, ¬ v.Has addr) ∧ AreaList mm' := by
  have hfirst : (findVma mm addr).1 = none := congrArg Prod.fst hfind
  have hnext : AreaList (findVma mm addr).2 := h.find
  rw [hfind] at hnext
  rw [findVma_eq] at hfirst
  exact ⟨candidate_none hfirst, hnext⟩

/-- The flags of a byte are those of the area that has it. -/
theorem AreaList.granted_iff (h : AreaList mm) (hvma : vma ∈ mm.mmapList)
    (hhas : vma.Has addr) :
    Granted mm.mmapList write addr
      ↔ hasFlag vma.vmFlags (accessFlag write)
        ∧ ¬ (write = true ∧ hasFlag vma.vmFlags vmStack
          ∧ addr < vma.vmStart + pgsize) := by
  constructor
  · intro hgranted
    obtain ⟨⟨v, hv, hvhas, hflag⟩, hguard⟩ := hgranted
    have heq : v = vma := h.unique hv hvma hvhas hhas
    refine ⟨heq ▸ hflag, ?_⟩
    intro hin
    exact hguard hin.1 ⟨vma, hvma, hhas, hin.2⟩
  · intro hflags
    obtain ⟨hflag, hguard⟩ := hflags
    refine ⟨⟨vma, hvma, hhas, hflag⟩, ?_⟩
    intro hwrite hin
    obtain ⟨v, hv, hvhas, hstack⟩ := hin
    have heq : v = vma := h.unique hv hvma hvhas hhas
    rw [heq] at hstack
    exact hguard ⟨hwrite, hstack⟩

-- ========================================================== the loop

/-- The loop answers for every byte of the rest of the range, and changes
the cache at most. -/
theorem memCheckLoop_spec (h : AreaList mm) (hlast : last ≤ usertop) :
    ((memCheckLoop mm start last write).1 = true
        ↔ ∀ a, start ≤ a → a < last → Granted mm.mmapList write a)
      ∧ (memCheckLoop mm start last write).2.mmapList = mm.mmapList
      ∧ AreaList (memCheckLoop mm start last write).2 := by
  have hstop : ∀ {mm mm' : MmStruct} {start : Nat}, start < last →
      mm'.mmapList = mm.mmapList → AreaList mm' →
      ¬ Granted mm.mmapList write start →
      ((false, mm').1 = true
          ↔ ∀ a, start ≤ a → a < last → Granted mm.mmapList write a)
        ∧ (false, mm').2.mmapList = mm.mmapList
        ∧ AreaList (false, mm').2 := by
    intro mm mm' start hlt hlist hareas hno
    refine ⟨⟨(fun h => by cases h), ?_⟩, hlist, hareas⟩
    intro hall
    exact absurd (hall start (Nat.le_refl start) hlt) hno
  fun_induction memCheckLoop mm start last write with
  | case1 mm start hlt mm' hfind =>
      obtain ⟨hnone, hareas⟩ := h.missed hfind
      apply hstop hlt (findVma_list hfind) hareas
      intro hgranted
      obtain ⟨⟨v, hv, hhas, -⟩, -⟩ := hgranted
      exact hnone v hv hhas
  | case2 mm start hlt vma mm' hfind hbelow =>
      obtain ⟨-, hhas, -⟩ := h.found hfind
      exact absurd hhas.1 (Nat.not_le.2 hbelow)
  | case3 mm start hlt vma mm' hfind _ hflag =>
      obtain ⟨hin, hhas, hareas⟩ := h.found hfind
      apply hstop hlt (findVma_list hfind) hareas
      rw [h.granted_iff hin hhas]
      exact fun hgranted => hflag hgranted.1
  | case4 mm start hlt vma mm' hfind _ _ hguard =>
      obtain ⟨hin, hhas, hareas⟩ := h.found hfind
      apply hstop hlt (findVma_list hfind) hareas
      rw [h.granted_iff hin hhas]
      obtain ⟨hwrite, hstack, hfirst⟩ := hguard
      intro hgranted
      refine hgranted.2 ⟨hwrite, hstack, ?_⟩
      exact Nat.lt_of_lt_of_le hfirst (Nat.mod_le _ _)
  | case5 mm start hlt vma mm' hfind _ hflag hguard ih =>
      obtain ⟨hin, hhas, hareas⟩ := h.found hfind
      obtain ⟨hiff, hlist, hrest⟩ := ih hareas
      rw [findVma_list hfind] at hiff hlist
      refine ⟨hiff.trans ?_, hlist, hrest⟩
      -- the rest of the area is as its byte at `start`
      have harea : ∀ a, start ≤ a → a < vma.vmEnd →
          Granted mm.mmapList write a := by
        intro a hle hend
        have ha : vma.Has a := ⟨Nat.le_trans hhas.1 hle, hend⟩
        apply (h.granted_iff hin ha).2
        refine ⟨not_not.1 hflag, ?_⟩
        intro hbad
        obtain ⟨hwrite, hstack, hfirst⟩ := hbad
        apply hguard
        refine ⟨hwrite, hstack, ?_⟩
        have hstart := hhas.1
        unfold pgsize at hfirst ⊢
        unfold usertop at hlast
        omega
      constructor
      · intro hall a hle halast
        by_cases hend : a < vma.vmEnd
        · exact harea a hle hend
        · exact hall a (Nat.not_lt.1 hend) halast
      · intro hall a hle halast
        have hend := hhas.2
        exact hall a (by omega) halast
  | case6 mm start hlt =>
      refine ⟨⟨?_, fun _ => rfl⟩, rfl, h⟩
      intro _ a hle halast
      omega

-- ==================================================== user_mem_check

/-- The range of an access is a user range if it does not wrap and lies
between the bounds. -/
theorem userAccess_iff (haddr : addr < 2 ^ 64) (hlen : len < 2 ^ 64)
    (hpos : 1 ≤ len) :
    userAccess addr ((addr + len) % 2 ^ 64)
      ↔ userbase ≤ addr ∧ addr + len ≤ usertop := by
  unfold userAccess usertop
  omega

theorem userMemCheck_user (hbase : userbase ≤ addr) (hpos : 1 ≤ len)
    (htop : addr + len ≤ usertop) :
    userMemCheck (some mm) addr len write
      = ((memCheckLoop mm addr (addr + len) write).1,
        some (memCheckLoop mm addr (addr + len) write).2) := by
  have hwrap : (addr + len) % 2 ^ 64 = addr + len := by
    unfold usertop at htop
    omega
  have huser : userAccess addr ((addr + len) % 2 ^ 64) := by
    rw [hwrap]
    exact ⟨hbase, by omega, htop⟩
  show (if userAccess addr ((addr + len) % 2 ^ 64) then
    ((memCheckLoop mm addr ((addr + len) % 2 ^ 64) write).1,
      some (memCheckLoop mm addr ((addr + len) % 2 ^ 64) write).2)
    else (false, some mm)) = _
  rw [if_pos huser, hwrap]

theorem userMemCheck_outside
    (huser : ¬ userAccess addr ((addr + len) % 2 ^ 64)) :
    userMemCheck (some mm) addr len write = (false, some mm) :=
  if_neg huser

/-- `user_mem_check` grants an access if and only if the range is a user
range of which every byte lies in an area that has the flag, and for a write
none in the first page of a stack. -/
theorem user_mem_check_iff (h : AreaList mm) (haddr : addr < 2 ^ 64)
    (hlen : len < 2 ^ 64) (hpos : 1 ≤ len) :
    (userMemCheck (some mm) addr len write).1 = true
      ↔ userbase ≤ addr ∧ addr + len ≤ usertop
        ∧ ∀ a, addr ≤ a → a < addr + len →
          InArea mm.mmapList (accessFlag write) a
            ∧ (write = true → ¬ InGuard mm.mmapList a) := by
  have hrange := userAccess_iff haddr hlen hpos
  by_cases huser : userAccess addr ((addr + len) % 2 ^ 64)
  case pos =>
    obtain ⟨hbase, htop⟩ := hrange.1 huser
    rw [userMemCheck_user hbase hpos htop]
    obtain ⟨hiff, -, -⟩ :=
      @memCheckLoop_spec mm addr (addr + len) write h htop
    constructor
    · intro hok
      exact ⟨hbase, htop, hiff.1 hok⟩
    · intro hall
      exact hiff.2 hall.2.2
  case neg =>
    rw [userMemCheck_outside huser]
    refine ⟨(fun h => by cases h), ?_⟩
    intro hall
    exact absurd (hrange.2 ⟨hall.1, hall.2.1⟩) huser

/-- A text area of a page with a stack of two pages after it. -/
def textAndStack : MmStruct :=
  { mmCreate 0 with
    mmapList := [⟨0x800000, 0x801000, vmRead ||| vmExec⟩,
      ⟨0x801000, 0x803000, vmRead ||| vmWrite ||| vmStack⟩]
    mapCount := 2 }

theorem textAndStack_areas : AreaList textAndStack := by
  refine ⟨?_, ?_, fun _ h => by cases h⟩
  · apply List.pairwise_pair.2
    decide
  · intro v hv
    rcases List.mem_pair.1 hv with heq | heq
    · rw [heq]
      decide
    · rw [heq]
      decide

/-- A read may cross into the stack; a write stays off its first page. -/
theorem user_mem_check_iff_stack :
    (userMemCheck (some textAndStack) 0x800ffe 4 false).1 = true
      ∧ (userMemCheck (some textAndStack) 0x801ffe 4 true).1 ≠ true := by
  refine ⟨(user_mem_check_iff textAndStack_areas (by decide) (by decide)
    (by decide)).2 ?_, fun hok => ?_⟩
  · refine ⟨by decide, by decide, ?_⟩
    intro a hlow hhigh
    refine ⟨?_, fun h => by cases h⟩
    by_cases htext : a < 0x801000
    · have hstart : 0x800000 ≤ a := Nat.le_trans (by decide) hlow
      exact ⟨_, List.mem_cons_self, ⟨hstart, htext⟩, by decide⟩
    · refine ⟨_, List.mem_cons_of_mem _ List.mem_cons_self,
        ⟨Nat.not_lt.1 htext, ?_⟩, by decide⟩
      show a < 0x803000
      omega
  · have hall := (user_mem_check_iff textAndStack_areas (by decide)
      (by decide) (by decide)).1 hok
    apply (hall.2.2 0x801ffe (by decide) (by decide)).2 rfl
    exact ⟨_, List.mem_cons_of_mem _ List.mem_cons_self, by decide⟩

end Ucore.Mm

namespace Ucore.Mm

variable {mm mm' : MmStruct} {mem : Nat → Option UInt8}
  {kmem kmem' : Nat → UInt8} {dst src maxn n k : Nat}

-- ======================================================= the purpose

/-- A byte that user code may read. -/
def Readable (vmas : List Vma) (a : Nat) : Prop :=
  userbase ≤ a ∧ a < usertop ∧ InArea vmas vmRead a

/-- The areas of a list start and end with a page. -/
def PageAligned (vmas : List Vma) : Prop :=
  ∀ vma ∈ vmas, vma.vmStart % pgsize = 0 ∧ vma.vmEnd % pgsize = 0

/-- The string at `src` ends with its byte `k`, and may be read up to it. -/
def EndsAt (mem : Nat → Option UInt8) (vmas : List Vma) (src k : Nat) :
    Prop :=
  mem (src + k) = some 0 ∧ (∀ i < k, mem (src + i) ≠ some 0)
    ∧ ∀ i ≤ k, Readable vmas (src + i)

/-- The first bytes at `src` are at `dst`, and nothing else has changed. -/
def CopiedTo (mem : Nat → Option UInt8) (kmem kmem' : Nat → UInt8)
    (dst src n : Nat) : Prop :=
  (∀ i < n, mem (src + i) = some (kmem' (dst + i)))
    ∧ ∀ a, a < dst ∨ dst + n ≤ a → kmem' a = kmem a

theorem EndsAt.unique {vmas : List Vma} {j : Nat}
    (hj : EndsAt mem vmas src j) (hk : EndsAt mem vmas src k) : j = k := by
  rcases Nat.lt_trichotomy j k with hlt | heq | hlt
  · exact absurd hj.1 (hk.2.1 j hlt)
  · exact heq
  · exact absurd hk.1 (hj.2.1 k hlt)

-- ======================================================== the chunks

/-- `strnlen` of bytes that may be read counts the bytes before the first
zero. -/
theorem strnlen_spec (hread : ∀ i < n, (mem (src + i)).isSome) :
    ∃ cnt, strnlen mem src n = some cnt ∧ cnt ≤ n
      ∧ (∀ i < cnt, mem (src + i) ≠ some 0)
      ∧ (cnt < n → mem (src + cnt) = some 0) := by
  induction n generalizing src with
  | zero =>
      exact ⟨0, rfl, Nat.le_refl 0, (fun _ h => by cases h), fun h => by cases h⟩
  | succ n ih =>
      obtain ⟨c, hc⟩ := Option.isSome_iff_exists.1 (hread 0 n.succ_pos)
      rw [Nat.add_zero] at hc
      have hrest : ∀ i < n, (mem (src + 1 + i)).isSome := by
        intro i hi
        have hi' := hread (i + 1) (Nat.succ_lt_succ hi)
        rwa [Nat.add_comm i 1, ← Nat.add_assoc] at hi'
      obtain ⟨cnt, hcnt, hle, hnone, hzero⟩ := ih hrest
      rw [strnlen, hc]
      dsimp only
      by_cases h0 : c = 0
      · rw [if_pos h0]
        refine ⟨0, rfl, Nat.zero_le _, (fun _ h => by cases h), ?_⟩
        intro _
        rw [Nat.add_zero, hc, h0]
      · rw [if_neg h0, hcnt]
        refine ⟨cnt + 1, rfl, Nat.succ_le_succ hle, ?_, ?_⟩
        · intro i hi
          cases i with
          | zero =>
              rw [Nat.add_zero, hc]
              exact fun heq => h0 (Option.some.inj heq)
          | succ i =>
              have hi' := hnone i (Nat.lt_of_succ_lt_succ hi)
              rwa [Nat.add_assoc, Nat.add_comm 1 i] at hi'
        · intro hlt
          have hend := hzero (Nat.lt_of_succ_lt_succ hlt)
          rwa [Nat.add_assoc, Nat.add_comm 1 cnt] at hend

/-- `memcpy` of bytes that may be read. -/
theorem memcpy_spec (hread : ∀ i < n, (mem (src + i)).isSome) :
    ∃ kmem', memcpy mem kmem dst src n = some kmem'
      ∧ CopiedTo mem kmem kmem' dst src n := by
  induction n generalizing kmem dst src with
  | zero => exact ⟨kmem, rfl, (fun _ h => by cases h), fun _ _ => rfl⟩
  | succ n ih =>
      obtain ⟨c, hc⟩ := Option.isSome_iff_exists.1 (hread 0 n.succ_pos)
      rw [Nat.add_zero] at hc
      have hrest : ∀ i < n, (mem (src + 1 + i)).isSome := by
        intro i hi
        have hi' := hread (i + 1) (Nat.succ_lt_succ hi)
        rwa [Nat.add_comm i 1, ← Nat.add_assoc] at hi'
      obtain ⟨kmem', hcopy, hbytes, hsame⟩ :=
        @ih (Function.update kmem dst c) (dst + 1) (src + 1) hrest
      rw [memcpy, hc]
      refine ⟨kmem', hcopy, ?_, ?_⟩
      · intro i hi
        cases i with
        | zero =>
            rw [Nat.add_zero, Nat.add_zero, hsame dst (.inl (by omega)),
              Function.update_self, hc]
        | succ i =>
            have hi' := hbytes i (Nat.lt_of_succ_lt_succ hi)
            rwa [Nat.add_assoc, Nat.add_assoc, Nat.add_comm 1 i] at hi'
      · intro a ha
        rw [hsame a (by omega), Function.update_of_ne (by omega)]

/-- Two pieces copied one after the other. -/
theorem CopiedTo.append {kmem'' : Nat → UInt8} {m : Nat}
    (h : CopiedTo mem kmem kmem' dst src n)
    (h' : CopiedTo mem kmem' kmem'' (dst + n) (src + n) m) :
    CopiedTo mem kmem kmem'' dst src (n + m) := by
  refine ⟨?_, ?_⟩
  · intro i hi
    by_cases hin : i < n
    · rw [h.1 i hin, h'.2 (dst + i) (.inl (by omega))]
    · have hi' := h'.1 (i - n) (by omega)
      rwa [Nat.add_assoc, Nat.add_assoc,
        Nat.add_sub_cancel' (Nat.not_lt.1 hin)] at hi'
  · intro a ha
    rw [h'.2 a (by omega), h.2 a (by omega)]

-- ========================================================= the pages

/-- The bytes of a page are all readable or none is. -/
theorem PageAligned.readable {vmas : List Vma} {a b : Nat}
    (h : PageAligned vmas) (ha : Readable vmas a)
    (hpage : a / pgsize = b / pgsize) : Readable vmas b := by
  obtain ⟨hbase, htop, vma, hvma, hhas, hflag⟩ := ha
  obtain ⟨hstart, hend⟩ := h vma hvma
  obtain ⟨hlow, hhigh⟩ := hhas
  unfold pgsize at hpage hstart hend
  unfold userbase at hbase
  unfold usertop at htop
  refine ⟨?_, ?_, vma, hvma, ⟨?_, ?_⟩, hflag⟩
  · show 0x00200000 ≤ b
    omega
  · show b < 0x80000000
    omega
  · omega
  · omega

/-- The bytes up to the end of the page of the first one. -/
theorem page_of_rest {i : Nat} (hi : i < pgsize - src % pgsize) :
    src / pgsize = (src + i) / pgsize := by
  unfold pgsize at hi ⊢
  omega

/-- What the first round starts with is the rest of the page. -/
theorem firstPart_eq (hsrc : src < usertop) :
    (rounddown ((src + pgsize) % 2 ^ 64) pgsize + 2 ^ 64 - src) % 2 ^ 64
      = pgsize - src % pgsize := by
  unfold usertop at hsrc
  unfold rounddown pgsize
  omega

-- ========================================================= the check

/-- The check of a piece of a page. -/
theorem readCheck_spec (h : AreaList mm) (hsrc : src ≤ usertop)
    (hpos : 1 ≤ n) (hn : n ≤ pgsize) :
    ((userMemCheck (some mm) src n false).1 = true
        ↔ ∀ i < n, Readable mm.mmapList (src + i))
      ∧ ∃ mm', (userMemCheck (some mm) src n false).2 = some mm'
        ∧ mm'.mmapList = mm.mmapList ∧ AreaList mm' := by
  have hrange : userAccess src ((src + n) % 2 ^ 64)
      ↔ userbase ≤ src ∧ src + n ≤ usertop := by
    unfold usertop at hsrc
    unfold pgsize at hn
    exact userAccess_iff (by omega) (by omega) hpos
  by_cases huser : userAccess src ((src + n) % 2 ^ 64)
  case pos =>
    obtain ⟨hbase, htop⟩ := hrange.1 huser
    obtain ⟨hiff, hlist, hareas⟩ :=
      @memCheckLoop_spec mm src (src + n) false h htop
    rw [userMemCheck_user hbase hpos htop]
    refine ⟨hiff.trans ?_, _, rfl, hlist, hareas⟩
    constructor
    · intro hall i hi
      have hgranted := hall (src + i) (by omega) (by omega)
      exact ⟨by omega, by omega, hgranted.1⟩
    · intro hall a hlow hhigh
      have hread := hall (a - src) (by omega)
      rw [Nat.add_sub_cancel' hlow] at hread
      exact ⟨hread.2.2, fun h => by cases h⟩
  case neg =>
    rw [userMemCheck_outside huser]
    refine ⟨⟨(fun h => by cases h), ?_⟩, mm, rfl, rfl, h⟩
    intro hall
    have hfirst := (hall 0 (by omega)).1
    have hlast := (hall (n - 1) (by omega)).2.1
    exact absurd (hrange.2 ⟨by omega, by omega⟩) huser

-- ========================================================== the loop

/-- What a call of `copy_string` is for: it succeeds if the string ends
within the budget and may be read up to its end, copies it then, and writes
no more than the budget in any case. -/
structure Scanned (mem : Nat → Option UInt8) (vmas : List Vma)
    (kmem : Nat → UInt8) (dst src maxn : Nat) (ok : Bool)
    (kmem' : Nat → UInt8) : Prop where
  found : ok = true ↔ ∃ k < maxn, EndsAt mem vmas src k
  copied : ∀ k < maxn, EndsAt mem vmas src k →
    CopiedTo mem kmem kmem' dst src (k + 1)
  within : ∀ a, a < dst ∨ dst + maxn ≤ a → kmem' a = kmem a

/-- A call that finds no end, and has written within the budget. -/
theorem Scanned.none {vmas : List Vma}
    (hno : ∀ k < maxn, ¬ EndsAt mem vmas src k)
    (hsame : ∀ a, a < dst ∨ dst + maxn ≤ a → kmem' a = kmem a) :
    Scanned mem vmas kmem dst src maxn false kmem' where
  found := by
    refine ⟨(fun h => by cases h), ?_⟩
    intro hends
    obtain ⟨k, hk, hends⟩ := hends
    exact absurd hends (hno k hk)
  copied k hk hends := absurd hends (hno k hk)
  within := hsame

/-- The rest of a string of which a piece holds no zero. -/
theorem endsAt_rest {vmas : List Vma}
    (hread : ∀ i < n, Readable vmas (src + i))
    (hnone : ∀ i < n, mem (src + i) ≠ some 0) :
    EndsAt mem vmas src k
      ↔ n ≤ k ∧ EndsAt mem vmas (src + n) (k - n) := by
  constructor
  · intro hends
    obtain ⟨hzero, hbefore, hall⟩ := hends
    have hle : n ≤ k := by
      by_contra hlt
      exact hnone k (Nat.not_le.1 hlt) hzero
    have hshift : ∀ i, src + n + i = src + (n + i) := Nat.add_assoc src n
    refine ⟨hle, ?_, ?_, ?_⟩
    · rwa [hshift, Nat.add_sub_cancel' hle]
    · intro i hi
      rw [hshift]
      exact hbefore (n + i) (by omega)
    · intro i hi
      rw [hshift]
      exact hall (n + i) (by omega)
  · intro hends
    obtain ⟨hle, hzero, hbefore, hall⟩ := hends
    have hshift : ∀ i, n ≤ i → src + i = src + n + (i - n) := by
      intro i hi
      omega
    refine ⟨?_, ?_, ?_⟩
    · rwa [hshift k hle]
    · intro i hi
      by_cases hin : i < n
      · exact hnone i hin
      · rw [hshift i (Nat.not_lt.1 hin)]
        exact hbefore (i - n) (by omega)
    · intro i hi
      by_cases hin : i < n
      · exact hread i hin
      · rw [hshift i (Nat.not_lt.1 hin)]
        exact hall (i - n) (by omega)

/-- A string with an unreadable byte in its first page has no end that may
be read. -/
theorem not_endsAt {vmas : List Vma} {i : Nat} (haligned : PageAligned vmas)
    (hi : i < pgsize - src % pgsize) (hno : ¬ Readable vmas (src + i)) :
    ¬ EndsAt mem vmas src k := by
  intro hends
  have hfirst : Readable vmas (src + 0) := hends.2.2 0 (Nat.zero_le k)
  exact hno (haligned.readable hfirst (page_of_rest hi))

/-- A call goes on after a piece without a zero. -/
theorem Scanned.rest {vmas : List Vma} {kmem'' : Nat → UInt8} {ok : Bool}
    (hread : ∀ i < n, Readable vmas (src + i))
    (hnone : ∀ i < n, mem (src + i) ≠ some 0) (hn : n ≤ maxn)
    (hcopy : CopiedTo mem kmem kmem' dst src n)
    (h : Scanned mem vmas kmem' (dst + n) (src + n) (maxn - n) ok kmem'') :
    Scanned mem vmas kmem dst src maxn ok kmem'' where
  found := by
    rw [h.found]
    constructor
    · intro hends
      obtain ⟨k, hk, hends⟩ := hends
      refine ⟨n + k, by omega, (endsAt_rest hread hnone).2 ⟨by omega, ?_⟩⟩
      rwa [Nat.add_sub_cancel_left]
    · intro hends
      obtain ⟨k, hk, hends⟩ := hends
      obtain ⟨hle, hrest⟩ := (endsAt_rest hread hnone).1 hends
      exact ⟨k - n, by omega, hrest⟩
  copied k hk hends := by
    obtain ⟨hle, hrest⟩ := (endsAt_rest hread hnone).1 hends
    have happ := hcopy.append (h.copied (k - n) (by omega) hrest)
    have hsum : n + (k - n + 1) = k + 1 := by omega
    rwa [hsum] at happ
  within a ha := by
    rw [h.within a (by omega), hcopy.2 a (by omega)]

/-- The check of a round. -/
theorem roundCheck {mo mo' : Option MmStruct} {part : Nat} {ok : Bool}
    (hmo : mo = some mm) (h : AreaList mm) (hsrc : src ≤ usertop)
    (hpos : 1 ≤ maxn) (hpart : part = min maxn (pgsize - src % pgsize))
    (hcheck : userMemCheck mo src part false = (ok, mo')) :
    (ok = true ↔ ∀ i < part, Readable mm.mmapList (src + i))
      ∧ ∃ mm', mo' = some mm' ∧ mm'.mmapList = mm.mmapList
        ∧ AreaList mm' := by
  have hmod : src % pgsize < pgsize := Nat.mod_lt src (by decide)
  have hspec := readCheck_spec h hsrc (show 1 ≤ part by omega)
    (show part ≤ pgsize by omega)
  rw [← hmo, hcheck] at hspec
  exact hspec

/-- A round takes no more than the budget. -/
theorem cut_eq_min (maxn part : Nat) :
    (if _ : maxn < part then maxn else part) = min maxn part := by
  split
  case isTrue h => omega
  case isFalse h => omega

/-- The loop, from the first byte of what is left of a page. -/
theorem copyStringLoop_spec {mo : Option MmStruct} {part : Nat}
    (hmo : mo = some mm)
    (h : AreaList mm) (haligned : PageAligned mm.mmapList)
    (hmem : ∀ a, Readable mm.mmapList a → (mem a).isSome)
    (hsrc : src ≤ usertop) (hpos : 1 ≤ maxn)
    (hpart : part = pgsize - src % pgsize) :
    ∃ ok mm' kmem',
      copyStringLoop mem mo kmem dst src maxn part = some (ok, some mm', kmem')
        ∧ Scanned mem mm.mmapList kmem dst src maxn ok kmem' := by
  fun_induction copyStringLoop mem mo kmem dst src maxn part generalizing mm with
  | case1 mo kmem dst src maxn part₀ part mo' =>
      rename_i hcheck
      have hn : part = min maxn (pgsize - src % pgsize) :=
        hpart ▸ cut_eq_min maxn part₀
      obtain ⟨hiff, mm', hmo', -⟩ := roundCheck hmo h hsrc hpos hn hcheck
      refine ⟨false, mm', kmem, by rw [hmo'], .none ?_ fun _ _ => rfl⟩
      intro k hk
      have hbad : ¬ ∀ i < part, Readable mm.mmapList (src + i) :=
        fun hall => Bool.false_ne_true (hiff.2 hall)
      push Not at hbad
      obtain ⟨i, hi, hno⟩ := hbad
      exact not_endsAt haligned (by omega) hno
  | case2 mo kmem dst src maxn part₀ part mo' hcheck =>
      rename_i hlen
      have hn : part = min maxn (pgsize - src % pgsize) :=
        hpart ▸ cut_eq_min maxn part₀
      obtain ⟨hiff, -⟩ := roundCheck hmo h hsrc hpos hn hcheck
      have hread : ∀ i < part, (mem (src + i)).isSome :=
        fun i hi => hmem _ (hiff.1 rfl i hi)
      obtain ⟨cnt, hcnt, -⟩ := strnlen_spec hread
      rw [hlen] at hcnt
      cases hcnt
  | case3 mo kmem dst src maxn part₀ part mo' hcheck alen hlen hlt =>
      rename_i hcopy
      have hn : part = min maxn (pgsize - src % pgsize) :=
        hpart ▸ cut_eq_min maxn part₀
      obtain ⟨hiff, -⟩ := roundCheck hmo h hsrc hpos hn hcheck
      have hread : ∀ i < alen + 1, (mem (src + i)).isSome :=
        fun i hi => hmem _ (hiff.1 rfl i (by omega))
      obtain ⟨kmem', hsome, -⟩ := @memcpy_spec _ kmem dst _ _ hread
      rw [hcopy] at hsome
      cases hsome
  | case4 mo kmem dst src maxn part₀ part mo' hcheck alen hlen hlt kmem' =>
      rename_i hcopy
      have hn : part = min maxn (pgsize - src % pgsize) :=
        hpart ▸ cut_eq_min maxn part₀
      obtain ⟨hiff, mm', hmo', -⟩ := roundCheck hmo h hsrc hpos hn hcheck
      have hread : ∀ i < part, (mem (src + i)).isSome :=
        fun i hi => hmem _ (hiff.1 rfl i hi)
      obtain ⟨cnt, hcnt, hle, hnone, hzero⟩ := strnlen_spec hread
      obtain ⟨kmem₂, hsome, hcopied⟩ := @memcpy_spec _ kmem dst _ _
        fun i (hi : i < alen + 1) => hread i (by omega)
      rw [hlen] at hcnt
      cases hcnt
      rw [hcopy] at hsome
      cases hsome
      have hends : EndsAt mem mm.mmapList src alen :=
        ⟨hzero hlt, hnone, fun i hi => hiff.1 rfl i (by omega)⟩
      refine ⟨true, mm', kmem', by rw [hmo'], ?_, ?_, ?_⟩
      · exact ⟨fun _ => ⟨alen, by omega, hends⟩, fun _ => rfl⟩
      · intro k hk hk'
        rw [← hends.unique hk']
        exact hcopied
      · intro a ha
        exact hcopied.2 a (by omega)
  | case5 mo kmem dst src maxn part₀ part mo' hcheck alen hlen hlt =>
      rename_i hbudget
      have hn : part = min maxn (pgsize - src % pgsize) :=
        hpart ▸ cut_eq_min maxn part₀
      obtain ⟨hiff, mm', hmo', -⟩ := roundCheck hmo h hsrc hpos hn hcheck
      have hread : ∀ i < part, (mem (src + i)).isSome :=
        fun i hi => hmem _ (hiff.1 rfl i hi)
      obtain ⟨cnt, hcnt, hle, hnone, -⟩ := strnlen_spec hread
      rw [hlen] at hcnt
      cases hcnt
      refine ⟨false, mm', kmem, by rw [hmo'], .none ?_ fun _ _ => rfl⟩
      intro k hk hends
      exact hnone k (by omega) hends.1
  | case6 mo kmem dst src maxn part₀ part mo' hcheck alen hlen hlt hmore =>
      rename_i hcopy
      have hn : part = min maxn (pgsize - src % pgsize) :=
        hpart ▸ cut_eq_min maxn part₀
      obtain ⟨hiff, -⟩ := roundCheck hmo h hsrc hpos hn hcheck
      have hread : ∀ i < part, (mem (src + i)).isSome :=
        fun i hi => hmem _ (hiff.1 rfl i hi)
      obtain ⟨kmem', hsome, -⟩ := @memcpy_spec _ kmem dst _ _ hread
      rw [hcopy] at hsome
      cases hsome
  | case7 mo kmem dst src maxn part₀ part mo' hcheck alen hlen hlt hmore
      kmem' hcopy =>
      rename_i ih
      have hn : part = min maxn (pgsize - src % pgsize) :=
        hpart ▸ cut_eq_min maxn part₀
      obtain ⟨hiff, mm', hmo', hlist, hareas⟩ :=
        roundCheck hmo h hsrc hpos hn hcheck
      have hall := hiff.1 rfl
      have hread : ∀ i < part, (mem (src + i)).isSome :=
        fun i hi => hmem _ (hall i hi)
      obtain ⟨cnt, hcnt, hle, hnone, -⟩ := strnlen_spec hread
      obtain ⟨kmem₂, hsome, hcopied⟩ := @memcpy_spec _ kmem dst _ _ hread
      rw [hlen] at hcnt
      cases hcnt
      rw [hcopy] at hsome
      cases hsome
      have hlen' : alen = part := by omega
      have hmod : src % pgsize < pgsize := Nat.mod_lt src (by decide)
      -- the rest of the page was read, so the next round starts a page
      have hrest : part = pgsize - src % pgsize := by omega
      have hnext : (src + part) % pgsize = 0 := by
        rw [hrest]
        unfold pgsize
        omega
      have htop : src + part ≤ usertop := by
        have hlast := (hall (part - 1) (by omega)).2.1
        omega
      rw [← hlist] at haligned hmem
      obtain ⟨ok, mm₂, kmem₂, hrun, hscan⟩ := ih hmo' hareas haligned hmem
        htop (by omega) (by rw [hnext, Nat.sub_zero])
      rw [hlist] at hscan
      exact ⟨ok, mm₂, kmem₂, hrun,
        hscan.rest hall (hlen' ▸ hnone) (by omega) hcopied⟩

-- ========================================================== the call

/-- `copy_string` from a user address returns, and without a fault where no
more than the readable bytes are mapped. It succeeds if and only if the
string has its first zero within the budget and may be read up to it, and
then copies the bytes up to the zero and changes no other. It never changes a
byte past the budget. -/
theorem copy_string_exact (h : AreaList mm)
    (haligned : PageAligned mm.mmapList)
    (hmem : ∀ a, Readable mm.mmapList a → (mem a).isSome)
    (hsrc : src < usertop) (hpos : 1 ≤ maxn) :
    ∃ ok mm' kmem',
      copyString mem (some mm) kmem dst src maxn = some (ok, some mm', kmem')
        ∧ (ok = true ↔ ∃ k < maxn, EndsAt mem mm.mmapList src k)
        ∧ (∀ k < maxn, EndsAt mem mm.mmapList src k →
          CopiedTo mem kmem kmem' dst src (k + 1))
        ∧ ∀ a, a < dst ∨ dst + maxn ≤ a → kmem' a = kmem a := by
  obtain ⟨ok, mm', kmem', hrun, hscan⟩ :=
    @copyStringLoop_spec _ _ kmem dst _ _ _ _ rfl h haligned hmem
      (Nat.le_of_lt hsrc) hpos (firstPart_eq hsrc)
  exact ⟨ok, mm', kmem', hrun, hscan.found, hscan.copied, hscan.within⟩

/-- Two letters on both sides of a page end. -/
def greeting (a : Nat) : Option UInt8 :=
  if a = 0x800fff then some 104
  else if a = 0x801000 then some 105
  else if 0x800000 ≤ a ∧ a < 0x803000 then some 0
  else none

theorem greeting_mapped {a : Nat} (ha : Readable textAndStack.mmapList a) :
    (greeting a).isSome := by
  obtain ⟨-, -, v, hv, hhas, -⟩ := ha
  have hrange : 0x800000 ≤ a ∧ a < 0x803000 := by
    obtain ⟨hlow, hhigh⟩ := hhas
    rcases List.mem_pair.1 hv with heq | heq
    · rw [heq] at hlow hhigh
      exact ⟨hlow, Nat.lt_trans hhigh (by decide)⟩
    · rw [heq] at hlow hhigh
      exact ⟨Nat.le_trans (by decide) hlow, hhigh⟩
  unfold greeting
  rw [if_pos hrange]
  split
  case isTrue => rfl
  case isFalse => split <;> rfl

/-- A string that crosses a page end, with a budget that just holds it. -/
theorem copy_string_exact_greeting : ∃ mm' kmem',
    copyString greeting (some textAndStack) (fun _ => 7) 0 0x800fff 3
        = some (true, some mm', kmem')
      ∧ kmem' 0 = 104 ∧ kmem' 1 = 105 ∧ kmem' 2 = 0 ∧ kmem' 3 = 7 := by
  have haligned : PageAligned textAndStack.mmapList := by
    intro v hv
    rcases List.mem_pair.1 hv with heq | heq
    · rw [heq]
      decide
    · rw [heq]
      decide
  obtain ⟨ok, mm', kmem', hrun, hfound, hcopied, hwithin⟩ :=
    @copy_string_exact _ _ (fun _ => 7) 0 0x800fff 3 textAndStack_areas
      haligned (fun _ => greeting_mapped) (by decide) (by decide)
  have hends : EndsAt greeting textAndStack.mmapList 0x800fff 2 := by
    refine ⟨by decide, by decide, ?_⟩
    intro i hi
    refine ⟨Nat.le_trans (by decide) (Nat.le_add_right _ i), ?_, ?_⟩
    · show 0x800fff + i < 0x80000000
      omega
    by_cases htext : i = 0
    · rw [htext]
      exact ⟨_, List.mem_cons_self, by decide, by decide⟩
    · refine ⟨_, List.mem_cons_of_mem _ List.mem_cons_self, ⟨?_, ?_⟩,
        by decide⟩
      · show 0x801000 ≤ 0x800fff + i
        omega
      · show 0x800fff + i < 0x803000
        omega
  have hok : ok = true := hfound.2 ⟨2, by decide, hends⟩
  obtain ⟨hbytes, -⟩ := hcopied 2 (by decide) hends
  rw [hok] at hrun
  refine ⟨mm', kmem', hrun, ?_, ?_, ?_, hwithin 3 (.inr (by decide))⟩
  · exact (Option.some.inj (hbytes 0 (by decide))).symm
  · exact (Option.some.inj (hbytes 1 (by decide))).symm
  · exact (Option.some.inj (hbytes 2 (by decide))).symm

end Ucore.Mm
