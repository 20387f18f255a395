/-
Blocks whose sizes are powers of two.

# Partners

The partner of a number at an order differs from it in that bit: two blocks
of one order that are partners join to a block of the next order. Blocks
need not be aligned: what makes two pages siblings in a block is their
distance from its first page.

# Sets of blocks

A set of blocks is given by a relation between first pages and orders. It
is `Apart` when no page lies in two blocks. Splitting a block, and joining
partners, keep it so.
-/
import Mathlib.Data.Nat.Bitwise
import Mathlib.Tactic.Ring

namespace Ucore.Dyadic

variable {x y z u k m j p lo hi : Nat}

-- ========================================================== partners

/-- The number that differs in bit `k`. -/
def partner (x k : Nat) : Nat := x ^^^ 2 ^ k

theorem partner_partner (x k : Nat) : partner (partner x k) k = x :=
  Nat.xor_xor_cancel_right x (2 ^ k)

/-- A partner is one block further up or down. -/
theorem partner_cases (x k : Nat) :
    partner x k = x + 2 ^ k ∨ x = partner x k + 2 ^ k := by
  have hmod : partner x k % 2 ^ k = x % 2 ^ k := by
    unfold partner
    rw [Nat.xor_mod_two_pow, Nat.mod_self, Nat.xor_zero]
  have hdiv : partner x k / 2 ^ k = x / 2 ^ k ^^^ 1 := by
    unfold partner
    rw [Nat.xor_div_two_pow, Nat.div_self (Nat.two_pow_pos k)]
  have hx := Nat.div_add_mod x (2 ^ k)
  have hp := Nat.div_add_mod (partner x k) (2 ^ k)
  rw [hmod, hdiv] at hp
  rcases Nat.even_or_odd (x / 2 ^ k) with heven | hodd
  · rw [Nat.xor_one_of_even heven, Nat.mul_add, Nat.mul_one] at hp
    omega
  · rw [Nat.xor_one_of_odd hodd] at hp
    obtain ⟨q, hq⟩ := hodd
    rw [hq, Nat.add_sub_cancel] at hp
    rw [hq, Nat.mul_add, Nat.mul_one] at hx
    omega

theorem partner_ne (x k : Nat) : partner x k ≠ x := by
  have hpos := Nat.two_pow_pos k
  rcases partner_cases x k with h | h
  · omega
  · omega

-- ========================================================== siblings

/-- In the block of order `k` from `x`, the page `z` and its partner at order
`j` are the first pages of the two halves of one part of order `j + 1`. -/
structure Siblings (x k z j : Nat) : Prop where
  low : x ≤ min z (partner z j)
  aligned : 2 ^ (j + 1) ∣ min z (partner z j) - x
  high : min z (partner z j) + 2 ^ (j + 1) ≤ x + 2 ^ k

theorem Siblings.order_lt (h : Siblings x k z j) : j < k := by
  have hle : 2 ^ (j + 1) ≤ 2 ^ k := by
    have hlow := h.low
    have hhigh := h.high
    omega
  exact (Nat.pow_le_pow_iff_right (by omega)).1 hle

/-- Both lie in the block. -/
theorem Siblings.mem (h : Siblings x k z j) :
    (x ≤ z ∧ z < x + 2 ^ k)
      ∧ x ≤ partner z j ∧ partner z j < x + 2 ^ k := by
  have hlow := h.low
  have hhigh := h.high
  have hpos := Nat.two_pow_pos j
  rw [Nat.pow_succ] at hhigh
  rcases partner_cases z j with hz | hz
  · omega
  · omega

/-- The two halves of a block that partners have been joined to. -/
theorem Siblings.halves : Siblings (min z (partner z j)) (j + 1) z j :=
  ⟨le_refl _, by rw [Nat.sub_self]; exact Nat.dvd_zero _, le_refl _⟩

/-- Siblings in the lower half are siblings in the block. -/
theorem Siblings.join_low (h : Siblings x k z j) : Siblings x (k + 1) z j := by
  refine ⟨h.low, h.aligned, h.high.trans ?_⟩
  rw [Nat.pow_succ]
  omega

/-- Siblings in the upper half are siblings in the block. -/
theorem Siblings.join_high (h : Siblings (x + 2 ^ k) k z j) :
    Siblings x (k + 1) z j := by
  have hlow := h.low
  have hhigh := h.high
  have hpos := Nat.two_pow_pos k
  refine ⟨by omega, ?_, ?_⟩
  · have hdvd : 2 ^ (j + 1) ∣ 2 ^ k :=
      Nat.pow_dvd_pow 2 h.order_lt
    have hsum := Nat.dvd_add h.aligned hdvd
    have heq : min z (partner z j) - (x + 2 ^ k) + 2 ^ k
        = min z (partner z j) - x := by omega
    rw [heq] at hsum
    exact hsum
  · rw [Nat.pow_succ 2 k]
    omega

/-- Splitting a block does not come between siblings, but for its halves. -/
theorem Siblings.split (h : Siblings x (k + 1) z j) :
    Siblings x k z j ∨ Siblings (x + 2 ^ k) k z j
      ∨ j = k ∧ (z = x ∨ z = x + 2 ^ k) := by
  have hlow := h.low
  have hhigh := h.high
  rw [Nat.pow_succ 2 k] at hhigh
  obtain ⟨q, hq⟩ := h.aligned
  rcases Nat.lt_or_ge j k with hjk | hjk
  · -- both halves are made of parts of order `j + 1`
    obtain ⟨r, hr⟩ : 2 ^ (j + 1) ∣ 2 ^ k := Nat.pow_dvd_pow 2 hjk
    rcases Nat.lt_or_ge q r with hqr | hqr
    · refine .inl ⟨hlow, h.aligned, ?_⟩
      have hle : 2 ^ (j + 1) * (q + 1) ≤ 2 ^ (j + 1) * r :=
        Nat.mul_le_mul_left _ hqr
      rw [Nat.mul_add, Nat.mul_one] at hle
      omega
    · refine .inr (.inl ⟨?_, ?_, by omega⟩)
      · have hle : 2 ^ (j + 1) * r ≤ 2 ^ (j + 1) * q :=
          Nat.mul_le_mul_left _ hqr
        omega
      · refine ⟨q - r, ?_⟩
        rw [Nat.mul_sub]
        omega
  · obtain rfl : j = k := by
      have hlt := h.order_lt
      omega
    refine .inr (.inr ⟨rfl, ?_⟩)
    have hpos := Nat.two_pow_pos j
    have hqz : q = 0 := by
      by_contra hne
      have hle : 2 ^ (j + 1) * 1 ≤ 2 ^ (j + 1) * q :=
        Nat.mul_le_mul_left _ (Nat.one_le_iff_ne_zero.2 hne)
      rw [Nat.pow_succ] at hle hq hhigh
      omega
    rw [hqz, Nat.mul_zero] at hq
    rcases partner_cases z j with hz | hz
    · left
      omega
    · right
      omega

-- ==================================================== sets of blocks

/-- No page lies in two blocks. -/
def Apart (B : Nat → Nat → Prop) : Prop :=
  ∀ x k y m p, B x k → B y m → x ≤ p → p < x + 2 ^ k → y ≤ p →
    p < y + 2 ^ m → x = y ∧ k = m

/-- Every block lies between `lo` and `hi`. -/
def Within (B : Nat → Nat → Prop) (lo hi : Nat) : Prop :=
  ∀ x k, B x k → lo ≤ x ∧ x + 2 ^ k ≤ hi

/-- Siblings in some block of the set. -/
def Inside (B : Nat → Nat → Prop) (z j : Nat) : Prop :=
  ∃ x k, B x k ∧ Siblings x k z j

variable {B B' : Nat → Nat → Prop}

theorem Apart.order_unique (h : Apart B) (hk : B x k) (hm : B x m) :
    k = m :=
  (h x k x m x hk hm (le_refl _) (Nat.lt_add_of_pos_right (Nat.two_pow_pos k))
    (le_refl _) (Nat.lt_add_of_pos_right (Nat.two_pow_pos m))).2

/-- The first page of a block is not inside a block with its partner at the
block's own order. -/
theorem Apart.not_inside (h : Apart B) (hx : B x k) : ¬ Inside B x k := by
  intro hin
  obtain ⟨u, m, hu, hsib⟩ := hin
  obtain ⟨⟨hlo, hhi⟩, -⟩ := hsib.mem
  obtain ⟨rfl, rfl⟩ := h x k u m x hx hu (le_refl _)
    (Nat.lt_add_of_pos_right (Nat.two_pow_pos k)) hlo hhi
  exact Nat.lt_irrefl _ hsib.order_lt

/-- The set after a block has been split. -/
def Split (B : Nat → Nat → Prop) (x k : Nat) (y m : Nat) : Prop :=
  (B y m ∧ ¬ (y = x ∧ m = k + 1)) ∨ (m = k ∧ (y = x ∨ y = x + 2 ^ k))

/-- A page of a half is one of the block. -/
theorem half_mem (h : y = x ∨ y = x + 2 ^ k) (hlo : y ≤ p)
    (hhi : p < y + 2 ^ k) : x ≤ p ∧ p < x + 2 ^ (k + 1) := by
  rw [Nat.pow_succ]
  rcases h with rfl | rfl
  · omega
  · omega

theorem Apart.split (h : Apart B) (hx : B x (k + 1)) : Apart (Split B x k) := by
  intro y m y' m' p hy hy' h1 h2 h3 h4
  rcases hy with ⟨hy, hne⟩ | ⟨rfl, hy⟩
  · rcases hy' with ⟨hy', -⟩ | ⟨rfl, hy'⟩
    · exact h y m y' m' p hy hy' h1 h2 h3 h4
    · obtain ⟨hlo, hhi⟩ := half_mem hy' h3 h4
      exact absurd (h y m x (m' + 1) p hy hx h1 h2 hlo hhi) hne
  · rcases hy' with ⟨hy', hne⟩ | ⟨rfl, hy'⟩
    · obtain ⟨hlo, hhi⟩ := half_mem hy h1 h2
      obtain ⟨hxy, hmm⟩ := h x (m + 1) y' m' p hx hy' hlo hhi h3 h4
      exact absurd ⟨hxy.symm, hmm.symm⟩ hne
    · refine ⟨?_, rfl⟩
      rcases hy with rfl | rfl
      · rcases hy' with rfl | rfl
        · rfl
        · omega
      · rcases hy' with rfl | rfl
        · omega
        · rfl

theorem Within.split (h : Within B lo hi) (hx : B x (k + 1)) :
    Within (Split B x k) lo hi := by
  intro y m hy
  rcases hy with ⟨hy, -⟩ | ⟨rfl, hy⟩
  · exact h y m hy
  · obtain ⟨hlo, hhi⟩ := h x (m + 1) hx
    rw [Nat.pow_succ] at hhi
    rcases hy with rfl | rfl
    · omega
    · omega

/-- Siblings are inside blocks together. -/
theorem Inside.symm (h : Inside B (partner z j) j) : Inside B z j := by
  obtain ⟨x, k, hx, hsib⟩ := h
  refine ⟨x, k, hx, ?_⟩
  have hlow := hsib.low
  have haligned := hsib.aligned
  have hhigh := hsib.high
  rw [partner_partner, min_comm] at hlow haligned hhigh
  exact ⟨hlow, haligned, hhigh⟩

/-- Splitting leaves siblings inside blocks, but for the two halves. -/
theorem Inside.split (h : Inside B z j) :
    Inside (Split B x k) z j ∨ j = k ∧ (z = x ∨ z = x + 2 ^ k) := by
  obtain ⟨u, m, hu, hsib⟩ := h
  by_cases heq : u = x ∧ m = k + 1
  · obtain ⟨rfl, rfl⟩ := heq
    rcases hsib.split with hs | hs | hs
    · exact .inl ⟨u, k, .inr ⟨rfl, .inl rfl⟩, hs⟩
    · exact .inl ⟨u + 2 ^ k, k, .inr ⟨rfl, .inr rfl⟩, hs⟩
    · exact .inr hs
  · exact .inl ⟨u, m, .inl ⟨hu, heq⟩, hsib⟩

/-- The set after a block and its partner have been joined. -/
def Join (B : Nat → Nat → Prop) (x k : Nat) (y m : Nat) : Prop :=
  (B y m ∧ ¬ (m = k ∧ (y = x ∨ y = partner x k)))
    ∨ (y = min x (partner x k) ∧ m = k + 1)

/-- A page of the joined block is one of the two. -/
theorem join_mem (hlo : min x (partner x k) ≤ p)
    (hhi : p < min x (partner x k) + 2 ^ (k + 1)) :
    (x ≤ p ∧ p < x + 2 ^ k)
      ∨ (partner x k ≤ p ∧ p < partner x k + 2 ^ k) := by
  rw [Nat.pow_succ] at hhi
  rcases partner_cases x k with h | h
  · omega
  · omega

theorem Apart.join (h : Apart B) (hx : B x k) (hp : B (partner x k) k) :
    Apart (Join B x k) := by
  intro y m y' m' p hy hy' h1 h2 h3 h4
  have hgo : ∀ {y m}, B y m → ¬ (m = k ∧ (y = x ∨ y = partner x k)) →
      y ≤ p → p < y + 2 ^ m → min x (partner x k) ≤ p →
      p < min x (partner x k) + 2 ^ (k + 1) → False := by
    intro y m hy hne h1 h2 h3 h4
    rcases join_mem h3 h4 with hin | hin
    · obtain ⟨rfl, rfl⟩ := h y m x k p hy hx h1 h2 hin.1 hin.2
      exact hne ⟨rfl, .inl rfl⟩
    · obtain ⟨rfl, rfl⟩ := h y m (partner x k) k p hy hp h1 h2 hin.1 hin.2
      exact hne ⟨rfl, .inr rfl⟩
  rcases hy with ⟨hy, hne⟩ | ⟨rfl, rfl⟩
  · rcases hy' with ⟨hy', -⟩ | ⟨rfl, rfl⟩
    · exact h y m y' m' p hy hy' h1 h2 h3 h4
    · exact (hgo hy hne h1 h2 h3 h4).elim
  · rcases hy' with ⟨hy', hne⟩ | ⟨rfl, rfl⟩
    · exact (hgo hy' hne h3 h4 h1 h2).elim
    · exact ⟨rfl, rfl⟩

theorem Within.join (h : Within B lo hi) (hx : B x k)
    (hp : B (partner x k) k) : Within (Join B x k) lo hi := by
  intro y m hy
  rcases hy with ⟨hy, -⟩ | ⟨rfl, rfl⟩
  · exact h y m hy
  · obtain ⟨hlo, hhi⟩ := h x k hx
    obtain ⟨hlo', hhi'⟩ := h (partner x k) k hp
    rw [Nat.pow_succ]
    rcases partner_cases x k with hc | hc
    · omega
    · omega

/-- Joining leaves siblings inside blocks. -/
theorem Inside.join (h : Inside B z j) : Inside (Join B x k) z j := by
  obtain ⟨u, m, hu, hsib⟩ := h
  by_cases heq : m = k ∧ (u = x ∨ u = partner x k)
  · obtain ⟨rfl, hu'⟩ := heq
    refine ⟨min x (partner x m), m + 1, .inr ⟨rfl, rfl⟩, ?_⟩
    have hhalf : u = min x (partner x m)
        ∨ u = min x (partner x m) + 2 ^ m := by
      have hpos := Nat.two_pow_pos m
      rcases hu' with rfl | rfl
      · rcases partner_cases u m with hc | hc
        · omega
        · omega
      · rcases partner_cases x m with hc | hc
        · omega
        · omega
    rcases hhalf with hlow | hhigh
    · rw [← hlow]
      exact hsib.join_low
    · rw [hhigh] at hsib
      exact hsib.join_high
  · exact ⟨u, m, .inl ⟨hu, heq⟩, hsib⟩

/-- The partners joined are siblings inside the joined block. -/
theorem Inside.joined : Inside (Join B x k) x k :=
  ⟨min x (partner x k), k + 1, .inr ⟨rfl, rfl⟩, .halves⟩

theorem Inside.congr (h : Inside B z j) (hB : ∀ x k, B x k → B' x k) :
    Inside B' z j := by
  obtain ⟨x, k, hx, hsib⟩ := h
  exact ⟨x, k, hB x k hx, hsib⟩

end Ucore.Dyadic
