/-
Extent lists: a set of numbers kept as an ordered list of intervals.

A list of extents is `Separated` when the extents are nonempty, in
increasing order, and no two of them overlap or touch, so that the list
is the unique coarsest way to write down the set it `Covers`; it is `Laid`
out when neighbours may touch. Both are `Spaced`, by one number or by none.
The two operations an allocator performs on such a list both happen at a
cut: `carve` takes the first `n` numbers off one extent, and `coalesce`
puts a released extent between two neighbours and merges it with whichever
of them it touches. Each comes with the set it leaves covered, with the
total length it leaves, and with the fact that it keeps the spacing.
-/
import Mathlib.Data.List.Basic
import Mathlib.Algebra.Order.Group.Nat
import Mathlib.Algebra.BigOperators.Group.List.Basic
import Mathlib.Algebra.GroupWithZero.Nat

namespace Ucore

-- =========================================================== extents

/-- The interval of the `len` numbers from `start` on. -/
structure Extent where
  start : Nat
  len : Nat
deriving DecidableEq, Repr

namespace Extent

/-- One past the last number of the extent. -/
def stop (e : Extent) : Nat := e.start + e.len

/-- The numbers of an extent. -/
def Has (e : Extent) (q : Nat) : Prop := e.start ≤ q ∧ q < e.stop

@[simp] theorem stop_mk (a n : Nat) : (Extent.mk a n).stop = a + n := rfl

/-- A list of extents covers the numbers of its members. -/
def Covers (l : List Extent) (q : Nat) : Prop := ∃ e ∈ l, e.Has q

/-- Nonempty extents in increasing order, at least `d` numbers between one
and the next. -/
structure Spaced (d : Nat) (l : List Extent) : Prop where
  pos : ∀ e ∈ l, 0 < e.len
  gap : l.Pairwise fun a b => a.stop + d ≤ b.start

/-- Nonempty extents in increasing order, no two touching. -/
structure Separated (l : List Extent) : Prop where
  pos : ∀ e ∈ l, 0 < e.len
  gap : l.Pairwise fun a b => a.stop < b.start

/-- Nonempty extents in increasing order, no two overlapping. -/
def Laid (l : List Extent) : Prop := Spaced 0 l

/-- The number of numbers in a list of extents. -/
def total (l : List Extent) : Nat := (l.map len).sum

@[simp] theorem total_nil : total [] = 0 := rfl

@[simp] theorem total_cons (e : Extent) (l : List Extent) :
    total (e :: l) = e.len + total l := by
  simp [total]

@[simp] theorem total_append (l l' : List Extent) :
    total (l ++ l') = total l + total l' := by
  simp [total]

/-- One member is no longer than the whole list. -/
theorem len_le_total {l : List Extent} {e : Extent} (he : e ∈ l) :
    e.len ≤ total l := by
  obtain ⟨pre, suf, rfl⟩ := List.append_of_mem he
  simp only [total_append, total_cons]
  omega

theorem covers_append {l l' : List Extent} {q : Nat} :
    Covers (l ++ l') q ↔ Covers l q ∨ Covers l' q := by
  simp [Covers, or_and_right, exists_or]

theorem covers_cons {e : Extent} {l : List Extent} {q : Nat} :
    Covers (e :: l) q ↔ e.Has q ∨ Covers l q := by
  simp [Covers]

theorem covers_nil {q : Nat} : ¬ Covers [] q := by
  simp [Covers]

-- =========================================================== spacing

/-- The start of a nonempty member is covered. -/
theorem covers_start {l : List Extent} {e : Extent} (he : e ∈ l)
    (hpos : 0 < e.len) : Covers l e.start :=
  ⟨e, he, Nat.le_refl _, Nat.lt_add_of_pos_right hpos⟩

theorem spaced_nil {d : Nat} : Spaced d [] := ⟨by simp, List.Pairwise.nil⟩

theorem spaced_append {d : Nat} {l l' : List Extent} :
    Spaced d (l ++ l') ↔ Spaced d l ∧ Spaced d l'
      ∧ ∀ a ∈ l, ∀ b ∈ l', a.stop + d ≤ b.start := by
  constructor
  · intro h
    obtain ⟨hl, hl', hll'⟩ := List.pairwise_append.1 h.gap
    exact ⟨⟨fun e he => h.pos e (by simp [he]), hl⟩,
      ⟨fun e he => h.pos e (by simp [he]), hl'⟩, hll'⟩
  · intro h
    obtain ⟨hl, hl', hll'⟩ := h
    refine ⟨fun e he => ?_, List.pairwise_append.2 ⟨hl.gap, hl'.gap, hll'⟩⟩
    rcases List.mem_append.1 he with he | he
    · exact hl.pos e he
    · exact hl'.pos e he

theorem spaced_cons {d : Nat} {e : Extent} {l : List Extent} :
    Spaced d (e :: l) ↔ 0 < e.len ∧ Spaced d l
      ∧ ∀ b ∈ l, e.stop + d ≤ b.start := by
  constructor
  · intro h
    obtain ⟨hgap, hl⟩ := List.pairwise_cons.1 h.gap
    exact ⟨h.pos e (by simp), ⟨fun b hb => h.pos b (by simp [hb]), hl⟩, hgap⟩
  · intro h
    obtain ⟨hpos, hl, hgap⟩ := h
    refine ⟨fun b hb => ?_, List.pairwise_cons.2 ⟨hgap, hl.gap⟩⟩
    rcases List.mem_cons.1 hb with rfl | hb
    · exact hpos
    · exact hl.pos b hb

/-- Extents far apart are apart. -/
theorem Spaced.laid {d : Nat} {l : List Extent} (hl : Spaced d l) : Laid l :=
  ⟨hl.pos, hl.gap.imp fun h => Nat.le_trans (Nat.le_add_right _ _) h⟩

/-- In a laid out list a number lies in one member only. -/
theorem Laid.has_unique {l : List Extent} (hl : Laid l)
    {a b : Extent} (ha : a ∈ l) (hb : b ∈ l) {q : Nat}
    (haq : a.Has q) (hbq : b.Has q) : a = b := by
  obtain ⟨haq1, haq2⟩ := haq
  obtain ⟨hbq1, hbq2⟩ := hbq
  obtain ⟨pre, suf, rfl⟩ := List.append_of_mem ha
  obtain ⟨-, hsuf, hpre⟩ := spaced_append.1 hl
  obtain ⟨-, -, hgap⟩ := spaced_cons.1 hsuf
  rcases List.mem_append.1 hb with hb | hb
  · have := hpre b hb a (by simp)
    omega
  · rcases List.mem_cons.1 hb with rfl | hb
    · rfl
    · have := hgap b hb
      omega

/-- In a laid out list starts increase. -/
theorem Laid.starts {l : List Extent} (hl : Laid l) :
    l.Pairwise fun a b => a.start < b.start := by
  apply hl.gap.imp_of_mem
  intro a b ha _ hgap
  have hpos := hl.pos a ha
  simp only [stop] at hgap
  omega

/-- Every number cuts a laid out list into the members that begin at or
before it and those that begin after it. -/
theorem Laid.cut {l : List Extent} (hl : Laid l) (q : Nat) :
    ∃ pre suf, l = pre ++ suf ∧ (∀ a ∈ pre, a.start ≤ q)
      ∧ ∀ b ∈ suf, q < b.start := by
  induction l with
  | nil => exact ⟨[], [], rfl, by simp, by simp⟩
  | cons e l ih =>
      obtain ⟨hpos, hl', hgap⟩ := spaced_cons.1 hl
      by_cases he : q < e.start
      · refine ⟨[], e :: l, rfl, by simp, fun b hb => ?_⟩
        rcases List.mem_cons.1 hb with rfl | hb
        · exact he
        · have := hgap b hb
          simp only [stop] at this
          omega
      · obtain ⟨pre, suf, rfl, hpre, hsuf⟩ := ih hl'
        refine ⟨e :: pre, suf, rfl, fun a ha => ?_, hsuf⟩
        rcases List.mem_cons.1 ha with rfl | ha
        · exact Nat.le_of_not_lt he
        · exact hpre a ha

/-- Numbers that are not covered lie between two members. -/
theorem Laid.cut_around {l : List Extent} (hl : Laid l) {base n : Nat}
    (hn : 0 < n) (hnot : ∀ q, base ≤ q → q < base + n → ¬ Covers l q) :
    ∃ pre suf, l = pre ++ suf ∧ (∀ a ∈ pre, a.start < base)
      ∧ (∀ a ∈ pre, a.stop ≤ base) ∧ ∀ b ∈ suf, base + n ≤ b.start := by
  obtain ⟨pre, suf, rfl, hpre, hsuf⟩ := hl.cut base
  have hstop : ∀ a ∈ pre, a.stop ≤ base := by
    intro a ha
    by_contra hlt
    exact hnot base (Nat.le_refl _) (by omega)
      ⟨a, by simp [ha], hpre a ha, Nat.lt_of_not_le hlt⟩
  refine ⟨pre, suf, rfl, fun a ha => ?_, hstop, fun b hb => ?_⟩
  · have hpos := hl.pos a (by simp [ha])
    have hle := hstop a ha
    simp only [stop] at hle
    omega
  · by_contra hlt
    have hb' : b ∈ pre ++ suf := by simp [hb]
    exact hnot b.start (Nat.le_of_lt (hsuf b hb)) (by omega)
      (covers_start hb' (hl.pos b hb'))

/-- An extent fits in between two members it does not reach into. -/
theorem Laid.insert {pre suf : List Extent} {e : Extent}
    (hl : Laid (pre ++ suf)) (hpos : 0 < e.len)
    (hpre : ∀ a ∈ pre, a.stop ≤ e.start) (hsuf : ∀ b ∈ suf, e.stop ≤ b.start) :
    Laid (pre ++ e :: suf) := by
  obtain ⟨hp, hs, hgap⟩ := spaced_append.1 hl
  refine spaced_append.2 ⟨hp, spaced_cons.2 ⟨hpos, hs, hsuf⟩, ?_⟩
  intro a ha b hb
  rcases List.mem_cons.1 hb with rfl | hb
  · exact hpre a ha
  · exact hgap a ha b hb

-- ======================================================== separation

/-- Separated lists are those with a number between neighbours. -/
theorem separated_iff {l : List Extent} : Separated l ↔ Spaced 1 l :=
  ⟨fun h => ⟨h.pos, h.gap⟩, fun h => ⟨h.pos, h.gap⟩⟩

theorem Separated.laid {l : List Extent} (hl : Separated l) : Laid l :=
  (separated_iff.1 hl).laid

/-- The start of a member is covered. -/
theorem Separated.covers_start {l : List Extent} (hl : Separated l)
    {e : Extent} (he : e ∈ l) : Covers l e.start :=
  Extent.covers_start he (hl.pos e he)

theorem separated_nil : Separated [] := separated_iff.2 spaced_nil

theorem separated_append {l l' : List Extent} :
    Separated (l ++ l') ↔ Separated l ∧ Separated l'
      ∧ ∀ a ∈ l, ∀ b ∈ l', a.stop < b.start := by
  simp only [separated_iff]
  exact spaced_append

theorem separated_cons {e : Extent} {l : List Extent} :
    Separated (e :: l) ↔ 0 < e.len ∧ Separated l
      ∧ ∀ b ∈ l, e.stop < b.start := by
  simp only [separated_iff]
  exact spaced_cons

/-- In a separated list a number lies in one member only. -/
theorem Separated.has_unique {l : List Extent} (hl : Separated l)
    {a b : Extent} (ha : a ∈ l) (hb : b ∈ l) {q : Nat}
    (haq : a.Has q) (hbq : b.Has q) : a = b :=
  hl.laid.has_unique ha hb haq hbq

/-- Every number cuts a separated list into the members that begin at or
before it and those that begin after it. -/
theorem Separated.cut {l : List Extent} (hl : Separated l) (q : Nat) :
    ∃ pre suf, l = pre ++ suf ∧ (∀ a ∈ pre, a.start ≤ q)
      ∧ ∀ b ∈ suf, q < b.start :=
  hl.laid.cut q

-- ============================================================= carve

/-- What is left of an extent once its first `n` numbers are taken. -/
def rest (e : Extent) (n : Nat) : List Extent :=
  if n < e.len then [⟨e.start + n, e.len - n⟩] else []

section Carve

variable {pre suf : List Extent} {e : Extent} {n : Nat}

theorem rest_covers (hn : n ≤ e.len) {q : Nat} :
    Covers (rest e n) q ↔ e.Has q ∧ e.start + n ≤ q := by
  unfold rest
  split
  · simp only [covers_cons, covers_nil, Has, stop, or_false]
    omega
  · simp only [covers_nil, Has, stop, false_iff]
    omega

theorem rest_total (hn : n ≤ e.len) : total (rest e n) + n = e.len := by
  unfold rest
  split
  · simp only [total_cons, total_nil]
    omega
  · simp only [total_nil]
    omega

/-- Carving keeps the spacing. -/
theorem carve_spaced {d : Nat} (hl : Spaced d (pre ++ e :: suf)) :
    Spaced d (pre ++ rest e n ++ suf) := by
  obtain ⟨hpre, hsuf, hgap⟩ := spaced_append.1 hl
  obtain ⟨-, hsuf, hgap'⟩ := spaced_cons.1 hsuf
  unfold rest
  split
  case isFalse =>
    rw [List.append_nil, spaced_append]
    exact ⟨hpre, hsuf, fun a ha b hb => hgap a ha b (by simp [hb])⟩
  case isTrue hlt =>
    rw [List.append_assoc, List.singleton_append, spaced_append,
      spaced_cons]
    refine ⟨hpre, ⟨Nat.sub_pos_of_lt hlt, hsuf, fun b hb => ?_⟩, ?_⟩
    · have := hgap' b hb
      simp only [stop] at *
      omega
    · intro a ha b hb
      rcases List.mem_cons.1 hb with rfl | hb
      · have := hgap a ha e (by simp)
        simp only
        omega
      · exact hgap a ha b (by simp [hb])

/-- Carving keeps lists separated. -/
theorem carve_separated (hl : Separated (pre ++ e :: suf)) :
    Separated (pre ++ rest e n ++ suf) :=
  separated_iff.2 (carve_spaced (separated_iff.1 hl))

/-- Carving takes exactly the first `n` numbers of the extent. -/
theorem carve_covers (hl : Laid (pre ++ e :: suf)) (hn : n ≤ e.len)
    {q : Nat} : Covers (pre ++ rest e n ++ suf) q
      ↔ Covers (pre ++ e :: suf) q
        ∧ ¬ (e.start ≤ q ∧ q < e.start + n) := by
  obtain ⟨-, hsuf, hgap⟩ := spaced_append.1 hl
  obtain ⟨-, -, hgap'⟩ := spaced_cons.1 hsuf
  have hpreq : Covers pre q → q < e.start := by
    rintro ⟨a, ha, -, haq⟩
    have := hgap a ha e (by simp)
    omega
  have hsufq : Covers suf q → e.stop ≤ q := by
    rintro ⟨b, hb, hbq, -⟩
    have := hgap' b hb
    omega
  rw [covers_append, covers_append, covers_append, covers_cons,
    rest_covers hn]
  simp only [stop, Has] at *
  constructor
  · rintro ((h | h) | h)
    · have := hpreq h
      exact ⟨Or.inl h, by omega⟩
    · exact ⟨Or.inr (Or.inl h.1), by omega⟩
    · have := hsufq h
      exact ⟨Or.inr (Or.inr h), by omega⟩
  · rintro ⟨h | h | h, hq⟩
    · exact Or.inl (Or.inl h)
    · exact Or.inl (Or.inr ⟨h, by omega⟩)
    · exact Or.inr h

end Carve

-- ========================================================== coalesce

/-- Merge an extent into the last of the extents before it. -/
def mergeLeft (pre : List Extent) (e : Extent) : List Extent × Extent :=
  match pre.getLast? with
  | none => (pre, e)
  | some p =>
      if p.stop = e.start then (pre.dropLast, ⟨p.start, p.len + e.len⟩)
      else (pre, e)

/-- Merge an extent with the first of the extents after it. -/
def mergeRight (e : Extent) : List Extent → Extent × List Extent
  | [] => (e, [])
  | p :: suf =>
      if e.stop = p.start then (⟨e.start, e.len + p.len⟩, suf)
      else (e, p :: suf)

/-- Put an extent between its neighbours, merged with those it touches. -/
def coalesce (pre : List Extent) (e : Extent) (suf : List Extent) :
    List Extent :=
  (mergeLeft pre e).1
    ++ (mergeRight (mergeLeft pre e).2 suf).1
    :: (mergeRight (mergeLeft pre e).2 suf).2

/-- Merging with the first of several extents leaves the others alone. -/
theorem mergeRight_append {e : Extent} {xs ys : List Extent}
    (h : ∀ y ∈ ys, xs = [] → e.stop ≠ y.start) :
    mergeRight e (xs ++ ys)
      = ((mergeRight e xs).1, (mergeRight e xs).2 ++ ys) := by
  cases xs with
  | nil =>
      cases ys with
      | nil => rfl
      | cons y ys =>
          have hne := h y List.mem_cons_self rfl
          simp [mergeRight, hne]
  | cons x xs =>
      simp only [List.cons_append, mergeRight]
      split
      case isTrue _ => rfl
      case isFalse _ => rfl

/-- Merging a longer extent that ends at the same place. -/
theorem mergeRight_widen {e : Extent} {p d : Nat} {xs : List Extent}
    (h : p + d = e.start) : mergeRight ⟨p, d + e.len⟩ xs
      = (⟨p, d + (mergeRight e xs).1.len⟩, (mergeRight e xs).2) := by
  cases xs with
  | nil => rfl
  | cons x xs =>
      have hstop : (Extent.mk p (d + e.len)).stop = e.stop := by
        simp only [stop]
        omega
      by_cases htouch : e.stop = x.start
      · simp [mergeRight, hstop, htouch, Nat.add_assoc]
      · simp [mergeRight, hstop, htouch]

theorem mergeRight_start (e : Extent) (xs : List Extent) :
    (mergeRight e xs).1.start = e.start := by
  cases xs with
  | nil => rfl
  | cons x xs =>
      by_cases htouch : e.stop = x.start
      · simp [mergeRight, htouch]
      · simp [mergeRight, htouch]

theorem mem_of_mem_mergeRight {e a : Extent} {xs : List Extent}
    (h : a ∈ (mergeRight e xs).2) : a ∈ xs := by
  cases xs with
  | nil => exact h
  | cons x xs =>
      by_cases htouch : e.stop = x.start
      · simp only [mergeRight, htouch, if_true] at h
        exact List.mem_cons_of_mem x h
      · simp only [mergeRight, htouch, if_false] at h
        exact h

/-- Merging with the last of several extents leaves the others alone. -/
theorem mergeLeft_concat (pre : List Extent) (p e : Extent) :
    mergeLeft (pre ++ [p]) e
      = if p.stop = e.start then (pre, ⟨p.start, p.len + e.len⟩)
        else (pre ++ [p], e) := by
  simp [mergeLeft]

/-- The left merge merges with the extent that ends where `e` begins, when
there is one. -/
theorem mergeLeft_cases {pre : List Extent} {e : Extent} (hpre : Laid pre)
    (hle : ∀ a ∈ pre, a.stop ≤ e.start) :
    (mergeLeft pre e = (pre, e) ∧ ∀ a ∈ pre, a.stop ≠ e.start)
      ∨ ∃ pre' p, pre = pre' ++ [p] ∧ p.stop = e.start
        ∧ mergeLeft pre e = (pre', ⟨p.start, p.len + e.len⟩) := by
  rcases List.eq_nil_or_concat pre with rfl | ⟨pre', p, rfl⟩
  · exact Or.inl ⟨rfl, by simp⟩
  · rw [List.concat_eq_append] at *
    rw [mergeLeft_concat]
    by_cases htouch : p.stop = e.start
    · rw [if_pos htouch]
      exact Or.inr ⟨pre', p, rfl, htouch, rfl⟩
    · rw [if_neg htouch]
      refine Or.inl ⟨rfl, fun a ha => ?_⟩
      obtain ⟨-, hp, hgap⟩ := spaced_append.1 hpre
      rcases List.mem_append.1 ha with ha | ha
      · have hap := hgap a ha p (by simp)
        have hpos := hp.pos p (by simp)
        have hpe := hle p (by simp)
        simp only [stop] at *
        omega
      · rw [List.mem_singleton.1 ha]
        exact htouch

/-- The right merge merges with the extent that begins where `e` ends, when
there is one. -/
theorem mergeRight_cases {suf : List Extent} {e : Extent} (hsuf : Laid suf)
    (hle : ∀ b ∈ suf, e.stop ≤ b.start) :
    (mergeRight e suf = (e, suf) ∧ ∀ b ∈ suf, e.stop ≠ b.start)
      ∨ ∃ q suf', suf = q :: suf' ∧ e.stop = q.start
        ∧ mergeRight e suf = (⟨e.start, e.len + q.len⟩, suf') := by
  cases suf with
  | nil => exact Or.inl ⟨rfl, by simp⟩
  | cons q suf' =>
      rw [mergeRight]
      by_cases htouch : e.stop = q.start
      · rw [if_pos htouch]
        exact Or.inr ⟨q, suf', rfl, htouch, rfl⟩
      · rw [if_neg htouch]
        refine Or.inl ⟨rfl, fun b hb => ?_⟩
        obtain ⟨hpos, -, hgap⟩ := spaced_cons.1 hsuf
        have hqe := hle q List.mem_cons_self
        rcases List.mem_cons.1 hb with rfl | hb
        · exact htouch
        · have hqb := hgap b hb
          simp only [stop] at *
          omega

/-- Coalescing makes no new starts. -/
theorem start_of_mem_coalesce {pre suf : List Extent} {e a : Extent}
    (h : a ∈ coalesce pre e suf) :
    a.start = e.start ∨ ∃ x ∈ pre ++ suf, x.start = a.start := by
  have hleft : (∀ x ∈ (mergeLeft pre e).1, x ∈ pre)
      ∧ ((mergeLeft pre e).2.start = e.start
        ∨ ∃ x ∈ pre, x.start = (mergeLeft pre e).2.start) := by
    rcases List.eq_nil_or_concat pre with rfl | ⟨pre', p, rfl⟩
    · exact ⟨fun x hx => hx, .inl rfl⟩
    · rw [List.concat_eq_append, mergeLeft_concat]
      split
      case isTrue _ =>
        refine ⟨fun x hx => List.mem_append_left _ hx, .inr ⟨p, ?_, rfl⟩⟩
        simp
      case isFalse _ => exact ⟨fun x hx => hx, .inl rfl⟩
  obtain ⟨hmem, hstart⟩ := hleft
  rcases List.mem_append.1 h with ha | ha
  · exact .inr ⟨a, List.mem_append_left _ (hmem a ha), rfl⟩
  · rcases List.mem_cons.1 ha with rfl | ha
    · rw [mergeRight_start]
      rcases hstart with heq | ⟨x, hx, heq⟩
      · exact .inl heq
      · exact .inr ⟨x, List.mem_append_left _ hx, heq⟩
    · exact .inr ⟨a, List.mem_append_right _ (mem_of_mem_mergeRight ha), rfl⟩

/-- Some extent is as long as the one put in. -/
theorem exists_len_le_coalesce (pre : List Extent) (e : Extent)
    (suf : List Extent) : ∃ a ∈ coalesce pre e suf, e.len ≤ a.len := by
  have hleft : e.len ≤ (mergeLeft pre e).2.len := by
    unfold mergeLeft
    split
    · exact le_refl _
    · split
      · exact Nat.le_add_left _ _
      · exact le_refl _
  have hright : (mergeLeft pre e).2.len
      ≤ (mergeRight (mergeLeft pre e).2 suf).1.len := by
    unfold mergeRight
    split
    · exact le_refl _
    · split
      · exact Nat.le_add_right _ _
      · exact le_refl _
  refine ⟨(mergeRight (mergeLeft pre e).2 suf).1, ?_, hleft.trans hright⟩
  exact List.mem_append_right _ List.mem_cons_self

section Coalesce

variable {pre suf : List Extent} {e : Extent} {d : Nat}

/-- The left merge keeps the numbers. -/
theorem mergeLeft_covers (hle : ∀ a ∈ pre, 0 < a.len ∧ a.stop ≤ e.start)
    {q : Nat} : Covers (mergeLeft pre e).1 q ∨ (mergeLeft pre e).2.Has q
      ↔ Covers pre q ∨ e.Has q := by
  rcases List.eq_nil_or_concat pre with rfl | ⟨pre', p, rfl⟩
  · rfl
  · rw [List.concat_eq_append, mergeLeft_concat]
    by_cases htouch : p.stop = e.start
    · rw [if_pos htouch, covers_append, covers_cons, or_assoc]
      have hp := hle p (by simp)
      simp only [covers_nil, or_false, Has, stop] at *
      apply or_congr_right
      omega
    · rw [if_neg htouch]

/-- The left merge keeps the length. -/
theorem mergeLeft_total : total (mergeLeft pre e).1 + (mergeLeft pre e).2.len
    = total pre + e.len := by
  rcases List.eq_nil_or_concat pre with rfl | ⟨pre', p, rfl⟩
  · rfl
  · rw [List.concat_eq_append, mergeLeft_concat]
    by_cases htouch : p.stop = e.start
    · rw [if_pos htouch, total_append, total_cons, total_nil]
      simp only
      omega
    · rw [if_neg htouch]

/-- What the left merge leaves ends where it did, and is spaced from the
extents before it. -/
theorem mergeLeft_spaced (hd : d ≤ 1) (hpre : Spaced d pre) (hpos : 0 < e.len)
    (hle : ∀ a ∈ pre, a.stop ≤ e.start) :
    Spaced d (mergeLeft pre e).1 ∧ 0 < (mergeLeft pre e).2.len
      ∧ (∀ a ∈ (mergeLeft pre e).1,
        a ∈ pre ∧ a.stop + d ≤ (mergeLeft pre e).2.start)
      ∧ (mergeLeft pre e).2.stop = e.stop := by
  rcases List.eq_nil_or_concat pre with rfl | ⟨pre', p, rfl⟩
  · simp [mergeLeft, hpos, spaced_nil]
  · rw [List.concat_eq_append] at *
    obtain ⟨hpre', hp, hgap⟩ := spaced_append.1 hpre
    obtain ⟨hppos, -, -⟩ := spaced_cons.1 hp
    have hple := hle p (by simp)
    rw [mergeLeft_concat]
    by_cases htouch : p.stop = e.start
    · rw [if_pos htouch]
      refine ⟨hpre', Nat.add_pos_left hppos _, fun a ha => ?_, ?_⟩
      · exact ⟨by simp [ha], hgap a ha p (by simp)⟩
      · simp only [stop] at *
        omega
    · rw [if_neg htouch]
      refine ⟨hpre, hpos, fun a ha => ⟨ha, ?_⟩, rfl⟩
      rcases List.mem_append.1 ha with ha | ha
      · have := hgap a ha p (by simp)
        simp only [stop] at *
        omega
      · rw [List.mem_singleton.1 ha]
        simp only
        omega

/-- The right merge keeps the numbers. -/
theorem mergeRight_covers (hle : ∀ b ∈ suf, 0 < b.len)
    {q : Nat} : (mergeRight e suf).1.Has q ∨ Covers (mergeRight e suf).2 q
      ↔ e.Has q ∨ Covers suf q := by
  cases suf with
  | nil => rfl
  | cons p suf =>
      have hp := hle p (by simp)
      by_cases htouch : e.stop = p.start
      · rw [mergeRight, if_pos htouch, covers_cons, ← or_assoc]
        simp only [Has, stop] at *
        apply or_congr_left
        omega
      · rw [mergeRight, if_neg htouch]

/-- The right merge keeps the length. -/
theorem mergeRight_total : (mergeRight e suf).1.len
    + total (mergeRight e suf).2 = e.len + total suf := by
  cases suf with
  | nil => rfl
  | cons p suf =>
      by_cases htouch : e.stop = p.start
      · rw [mergeRight, if_pos htouch, total_cons]
        simp only
        omega
      · rw [mergeRight, if_neg htouch]

/-- What the right merge leaves is spaced from the extents after it. -/
theorem mergeRight_spaced (hd : d ≤ 1) (hsuf : Spaced d suf)
    (hpos : 0 < e.len) (hle : ∀ b ∈ suf, e.stop ≤ b.start) :
    Spaced d ((mergeRight e suf).1 :: (mergeRight e suf).2) := by
  cases suf with
  | nil => simp [mergeRight, hpos, spaced_cons, spaced_nil]
  | cons p suf =>
      obtain ⟨hppos, hsuf', hgap⟩ := spaced_cons.1 hsuf
      have hple := hle p (by simp)
      by_cases htouch : e.stop = p.start
      · rw [mergeRight, if_pos htouch, spaced_cons]
        refine ⟨Nat.add_pos_left hpos _, hsuf', fun b hb => ?_⟩
        have := hgap b hb
        simp only [stop] at *
        omega
      · rw [mergeRight, if_neg htouch, spaced_cons]
        refine ⟨hpos, hsuf, fun b hb => ?_⟩
        rcases List.mem_cons.1 hb with rfl | hb
        · simp only
          omega
        · have := hgap b hb
          simp only [stop] at *
          omega

/-- Coalescing keeps the spacing of lists that may touch, and of lists that
may not. -/
theorem coalesce_spaced (hd : d ≤ 1) (hl : Spaced d (pre ++ suf))
    (hpos : 0 < e.len) (hpre : ∀ a ∈ pre, a.stop ≤ e.start)
    (hsuf : ∀ b ∈ suf, e.stop ≤ b.start) : Spaced d (coalesce pre e suf) := by
  obtain ⟨hspre, hssuf, hgap⟩ := spaced_append.1 hl
  obtain ⟨hL, hLpos, hLgap, hLstop⟩ := mergeLeft_spaced hd hspre hpos hpre
  have hR := mergeRight_spaced hd hssuf hLpos
    (fun b hb => hLstop ▸ hsuf b hb)
  refine spaced_append.2 ⟨hL, hR, fun a ha b hb => ?_⟩
  rcases List.mem_cons.1 hb with rfl | hb
  · rw [mergeRight_start]
    exact (hLgap a ha).2
  · exact hgap a (hLgap a ha).1 b (mem_of_mem_mergeRight hb)

/-- Coalescing keeps lists separated. -/
theorem coalesce_separated (hl : Separated (pre ++ suf)) (hpos : 0 < e.len)
    (hpre : ∀ a ∈ pre, a.stop ≤ e.start)
    (hsuf : ∀ b ∈ suf, e.stop ≤ b.start) : Separated (coalesce pre e suf) :=
  separated_iff.2
    (coalesce_spaced (Nat.le_refl 1) (separated_iff.1 hl) hpos hpre hsuf)

/-- Coalescing adds exactly the numbers of the released extent. -/
theorem coalesce_covers (hl : Laid (pre ++ suf))
    (hpre : ∀ a ∈ pre, a.stop ≤ e.start) {q : Nat} :
    Covers (coalesce pre e suf) q ↔ Covers (pre ++ suf) q ∨ e.Has q := by
  have hleft : ∀ a ∈ pre, 0 < a.len ∧ a.stop ≤ e.start :=
    fun a ha => ⟨hl.pos a (List.mem_append_left suf ha), hpre a ha⟩
  have hright : ∀ b ∈ suf, 0 < b.len :=
    fun b hb => hl.pos b (List.mem_append_right pre hb)
  rw [coalesce, covers_append, covers_cons, mergeRight_covers hright,
    ← or_assoc, mergeLeft_covers hleft, covers_append]
  exact or_right_comm

/-- Coalescing adds the length of the released extent. -/
theorem coalesce_total :
    total (coalesce pre e suf) = total (pre ++ suf) + e.len := by
  have hleft : total (mergeLeft pre e).1 + (mergeLeft pre e).2.len
      = total pre + e.len := mergeLeft_total
  have hright : (mergeRight (mergeLeft pre e).2 suf).1.len
      + total (mergeRight (mergeLeft pre e).2 suf).2
      = (mergeLeft pre e).2.len + total suf := mergeRight_total
  simp only [coalesce, total_append, total_cons]
  omega

end Coalesce

end Extent

end Ucore
