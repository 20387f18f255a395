/-
Rings of linked cells: the theory of a circular doubly linked list.

# The shape

A memory of link fields (`Links`) gives every cell a `prev` and a `next`
field. A head cell `h` and a list of cells `xs` form a ring (`IsRing`)
when following `next` from `h` visits `xs` in order and returns to `h`,
following `prev` visits them in the reverse order, and no cell occurs
twice. Link fields of cells outside the ring carry no information:
whatever a removed cell still points at is of no interest to the ring.

# Cuts

Every statement here is about a *cut* `xs = pre ++ suf`. The two cells
that meet at a cut are `before h pre` (the last cell of `pre`, the head
when `pre` is empty) and `after h suf` (the first cell of `suf`, the head
when `suf` is empty). A walk along the ring is an induction on `suf`; an
insertion joins a new cell into a cut (`IsRing.join`); a removal closes
the cut around a cell (`IsRing.bridge`).
-/
import Ucore.Lib.Circle
import Mathlib.Logic.Function.Basic
import Mathlib.Data.List.Basic

namespace Ucore.Ring

variable {ν : Type}

-- ======================================================== the memory

/-- The two link fields of every cell. -/
structure Links (ν : Type) where
  prev : ν → ν
  next : ν → ν

/-- Store `b` in the `next` field of `a`. -/
def Links.setNext [DecidableEq ν] (m : Links ν) (a b : ν) : Links ν :=
  { m with next := Function.update m.next a b }

/-- Store `b` in the `prev` field of `a`. -/
def Links.setPrev [DecidableEq ν] (m : Links ν) (a b : ν) : Links ν :=
  { m with prev := Function.update m.prev a b }

@[simp] theorem Links.setNext_next [DecidableEq ν] (m : Links ν)
    (a b c : ν) : (m.setNext a b).next c = if c = a then b else m.next c := by
  simp [Links.setNext, Function.update_apply]

@[simp] theorem Links.setNext_prev [DecidableEq ν] (m : Links ν)
    (a b c : ν) : (m.setNext a b).prev c = m.prev c := rfl

@[simp] theorem Links.setPrev_prev [DecidableEq ν] (m : Links ν)
    (a b c : ν) : (m.setPrev a b).prev c = if c = a then b else m.prev c := by
  simp [Links.setPrev, Function.update_apply]

@[simp] theorem Links.setPrev_next [DecidableEq ν] (m : Links ν)
    (a b c : ν) : (m.setPrev a b).next c = m.next c := rfl

-- ============================================================== cuts

/-- The cell before a cut: the last of `pre`, or the head. -/
def before (h : ν) : List ν → ν
  | [] => h
  | x :: xs => before x xs

/-- The cell after a cut: the first of `suf`, or the head. -/
def after (h : ν) : List ν → ν
  | [] => h
  | x :: _ => x

@[simp] theorem before_nil (h : ν) : before h [] = h := rfl

@[simp] theorem after_nil (h : ν) : after h [] = h := rfl

@[simp] theorem after_cons (h x : ν) (xs : List ν) :
    after h (x :: xs) = x := rfl

@[simp] theorem before_concat (h x : ν) (xs : List ν) :
    before h (xs ++ [x]) = x := by
  induction xs generalizing h with
  | nil => rfl
  | cons y ys ih => exact ih y

theorem before_mem (h : ν) (xs : List ν) : before h xs ∈ h :: xs := by
  induction xs generalizing h with
  | nil => exact List.mem_cons_self
  | cons y ys ih => exact List.mem_cons_of_mem _ (ih y)

theorem after_mem (h : ν) (xs : List ν) : after h xs ∈ h :: xs := by
  cases xs with
  | nil => exact List.mem_cons_self
  | cons y ys => exact List.mem_cons_of_mem _ List.mem_cons_self

-- ========================================================== segments

/-- Following the links from `a` visits `xs` and then reaches `b`. -/
def Seg (m : Links ν) : ν → List ν → ν → Prop
  | a, [], b => m.next a = b ∧ m.prev b = a
  | a, x :: xs, b => m.next a = x ∧ m.prev x = a ∧ Seg m x xs b

theorem seg_append {m : Links ν} {a b x : ν} {xs ys : List ν} :
    Seg m a (xs ++ x :: ys) b ↔ Seg m a xs x ∧ Seg m x ys b := by
  induction xs generalizing a with
  | nil => simp [Seg, and_assoc]
  | cons y xs ih => simp [Seg, ih, and_assoc]

/-- A segment only reads the `next` fields it leaves and the `prev`
fields it enters. -/
theorem Seg.congr {m m' : Links ν} {a b : ν} {xs : List ν}
    (hs : Seg m a xs b)
    (hn : ∀ c ∈ a :: xs, m'.next c = m.next c)
    (hp : ∀ c ∈ b :: xs, m'.prev c = m.prev c) : Seg m' a xs b := by
  induction xs generalizing a with
  | nil =>
      obtain ⟨h1, h2⟩ := hs
      exact ⟨by rw [hn a (by simp), h1], by rw [hp b (by simp), h2]⟩
  | cons x xs ih =>
      obtain ⟨h1, h2, h3⟩ := hs
      refine ⟨by rw [hn a (by simp), h1], by rw [hp x (by simp), h2], ?_⟩
      refine ih h3 (fun c hc => hn c (List.mem_cons_of_mem _ hc)) ?_
      intro c hc
      rcases List.mem_cons.1 hc with rfl | hc
      · exact hp c (by simp)
      · exact hp c (by simp [hc])

/-- A segment whose last link is redirected to a new end cell. -/
theorem Seg.retarget {m m' : Links ν} {a b e : ν} {xs : List ν}
    (hs : Seg m a xs b) (hnd : (a :: xs).Nodup)
    (hlast : m'.next (before a xs) = e)
    (hprev : m'.prev e = before a xs)
    (hn : ∀ c ∈ a :: xs, c ≠ before a xs → m'.next c = m.next c)
    (hp : ∀ c ∈ xs, m'.prev c = m.prev c) : Seg m' a xs e := by
  induction xs generalizing a with
  | nil => exact ⟨hlast, hprev⟩
  | cons x xs ih =>
      obtain ⟨h1, h2, h3⟩ := hs
      have hax : a ≠ before a (x :: xs) := by
        intro heq
        have hmem : a ∈ x :: xs := by
          rw [heq]
          exact before_mem x xs
        exact (List.nodup_cons.1 hnd).1 hmem
      refine ⟨by rw [hn a (by simp) hax, h1], by rw [hp x (by simp), h2], ?_⟩
      exact ih h3 (List.nodup_cons.1 hnd).2 hlast hprev
        (fun c hc hne => hn c (List.mem_cons_of_mem _ hc) hne)
        (fun c hc => hp c (List.mem_cons_of_mem _ hc))

-- ============================================================= rings

/-- `h` heads a ring whose other cells are `xs`, in order. -/
structure IsRing (m : Links ν) (h : ν) (xs : List ν) : Prop where
  nodup : (h :: xs).Nodup
  seg : Seg m h xs h

variable {m m' : Links ν} {h e : ν} {xs pre suf : List ν}

/-- Stores to cells outside the ring do not disturb it. -/
theorem IsRing.congr (hr : IsRing m h xs)
    (hn : ∀ c ∈ h :: xs, m'.next c = m.next c)
    (hp : ∀ c ∈ h :: xs, m'.prev c = m.prev c) : IsRing m' h xs :=
  ⟨hr.nodup, hr.seg.congr hn hp⟩

/-- A head linked to itself is the empty ring. -/
theorem isRing_nil : IsRing m h [] ↔ m.next h = h ∧ m.prev h = h :=
  ⟨fun hr => hr.seg, fun hs => ⟨by simp, hs⟩⟩

/-- The `next` fields determine a segment. -/
theorem Seg.unique {a b : ν} {ys : List ν} (hx : Seg m a xs b)
    (hy : Seg m a ys b) (hbx : b ∉ xs) (hby : b ∉ ys) : xs = ys := by
  induction xs generalizing a ys with
  | nil =>
      cases ys with
      | nil => rfl
      | cons y ys =>
          have heq : b = y := hx.1.symm.trans hy.1
          exact absurd (heq ▸ List.mem_cons_self) hby
  | cons x xs ih =>
      cases ys with
      | nil =>
          have heq : b = x := hy.1.symm.trans hx.1
          exact absurd (heq ▸ List.mem_cons_self) hbx
      | cons y ys =>
          have heq : x = y := hx.1.symm.trans hy.1
          subst heq
          rw [ih hx.2.2 hy.2.2 (fun h => hbx (List.mem_cons_of_mem x h))
            (fun h => hby (List.mem_cons_of_mem x h))]

/-- A head is on one ring. -/
theorem IsRing.unique {ys : List ν} (hx : IsRing m h xs)
    (hy : IsRing m h ys) : xs = ys :=
  hx.seg.unique hy.seg (List.nodup_cons.1 hx.nodup).1
    (List.nodup_cons.1 hy.nodup).1

/-- The `next` field across a cut. -/
theorem IsRing.next_before (hr : IsRing m h (pre ++ suf)) :
    m.next (before h pre) = after h suf := by
  have hseg := hr.seg
  rcases List.eq_nil_or_concat pre with rfl | ⟨pre', x, rfl⟩
  · cases suf with
    | nil => exact hseg.1
    | cons y ys => exact hseg.1
  · rw [List.concat_eq_append] at hseg ⊢
    rw [List.append_assoc, List.singleton_append, seg_append] at hseg
    rw [before_concat]
    cases suf with
    | nil => exact hseg.2.1
    | cons y ys => exact hseg.2.1

/-- The `prev` field across a cut. -/
theorem IsRing.prev_after (hr : IsRing m h (pre ++ suf)) :
    m.prev (after h suf) = before h pre := by
  have hseg := hr.seg
  rcases List.eq_nil_or_concat pre with rfl | ⟨pre', x, rfl⟩
  · cases suf with
    | nil => exact hseg.2
    | cons y ys => exact hseg.2.1
  · rw [List.concat_eq_append] at hseg ⊢
    rw [List.append_assoc, List.singleton_append, seg_append] at hseg
    rw [before_concat]
    cases suf with
    | nil => exact hseg.2.2
    | cons y ys => exact hseg.2.2.1

/-- The ring is empty exactly when its head points at itself. -/
theorem IsRing.next_head_eq (hr : IsRing m h xs) :
    m.next h = h ↔ xs = [] := by
  have hcut : IsRing m h ([] ++ xs) := hr
  have hnext : m.next h = after h xs := hcut.next_before
  cases xs with
  | nil => simpa using hnext
  | cons y ys =>
      have hne : y ≠ h := fun heq =>
        (List.nodup_cons.1 hr.nodup).1 (by simp [heq])
      simp [hnext, hne]

/-- Join `e` between the two cells of a cut. -/
theorem IsRing.join (hr : IsRing m h (pre ++ suf))
    (he : e ∉ h :: (pre ++ suf))
    (hna : m'.next (before h pre) = e) (hpe : m'.prev e = before h pre)
    (hne : m'.next e = after h suf) (hpa : m'.prev (after h suf) = e)
    (hn : ∀ c, c ≠ before h pre → c ≠ e → m'.next c = m.next c)
    (hp : ∀ c, c ≠ after h suf → c ≠ e → m'.prev c = m.prev c) :
    IsRing m' h (pre ++ e :: suf) := by
  have hnd : (h :: (pre ++ e :: suf)).Nodup := by
    have hperm : (h :: (pre ++ e :: suf)).Perm (e :: h :: (pre ++ suf)) :=
      (List.Perm.cons h List.perm_middle).trans (List.Perm.swap _ _ _)
    exact hperm.nodup_iff.2 (List.nodup_cons.2 ⟨he, hr.nodup⟩)
  have hndpre : (h :: pre).Nodup :=
    hr.nodup.sublist ((List.sublist_append_left _ _).cons_cons h)
  have hdisj : ∀ c ∈ h :: pre, c ∉ suf := by
    have happ : ((h :: pre) ++ suf).Nodup := hr.nodup
    intro c hc hcs
    exact (List.nodup_append.1 happ).2.2 c hc c hcs rfl
  have hafter : ∀ c ∈ pre, c ≠ after h suf := by
    intro c hc heq
    rcases List.mem_cons.1 (after_mem h suf) with hs | hs
    · exact (List.nodup_cons.1 hndpre).1 (hs ▸ heq ▸ hc)
    · exact hdisj c (List.mem_cons_of_mem _ hc) (heq ▸ hs)
  refine ⟨hnd, seg_append.2 ⟨?_, ?_⟩⟩
  · have hseg : Seg m h pre (after h suf) := by
      cases suf with
      | nil => simpa using hr.seg
      | cons y ys => exact (seg_append.1 hr.seg).1
    refine hseg.retarget hndpre hna hpe (fun c hc hcl => ?_) (fun c hc => ?_)
    · exact hn c hcl fun heq => he (heq ▸ List.mem_append_left suf hc)
    · exact hp c (hafter c hc) fun heq => he (by simp [← heq, hc])
  · cases suf with
    | nil => exact ⟨hne, hpa⟩
    | cons y ys =>
        refine ⟨hne, hpa, ?_⟩
        refine (seg_append.1 hr.seg).2.congr (fun c hc => ?_) (fun c hc => ?_)
        · refine hn c (fun heq => ?_) fun heq => he (by simp [← heq, hc])
          exact hdisj c (heq ▸ before_mem h pre) hc
        · refine hp c (fun heq => ?_) fun heq => he ?_
          · have hndsuf : (h :: y :: ys).Nodup :=
              hr.nodup.sublist ((List.sublist_append_right _ _).cons_cons h)
            simp only [after_cons] at heq
            subst heq
            rcases List.mem_cons.1 hc with rfl | hc
            · exact (List.nodup_cons.1 hndsuf).1 (by simp)
            · exact (List.nodup_cons.1 (List.nodup_cons.1 hndsuf).2).1 hc
          · rcases List.mem_cons.1 hc with rfl | hc
            · simp [← heq]
            · simp [← heq, hc]

/-- Close the ring around a cell taken out of it. -/
theorem IsRing.bridge (hr : IsRing m h (pre ++ e :: suf))
    (hna : m'.next (before h pre) = after h suf)
    (hpa : m'.prev (after h suf) = before h pre)
    (hn : ∀ c, c ≠ before h pre → m'.next c = m.next c)
    (hp : ∀ c, c ≠ after h suf → m'.prev c = m.prev c) :
    IsRing m' h (pre ++ suf) := by
  have hsub : List.Sublist (h :: (pre ++ suf)) (h :: (pre ++ e :: suf)) :=
    ((List.Sublist.refl pre).append (List.sublist_cons_self e suf)).cons_cons h
  have hnd : (h :: (pre ++ suf)).Nodup := hr.nodup.sublist hsub
  have hndpre : (h :: pre).Nodup :=
    hnd.sublist ((List.sublist_append_left _ _).cons_cons h)
  have hdisj : ∀ c ∈ h :: pre, c ∉ suf := by
    have happ : ((h :: pre) ++ suf).Nodup := hnd
    intro c hc hcs
    exact (List.nodup_append.1 happ).2.2 c hc c hcs rfl
  obtain ⟨hsegpre, hsegsuf⟩ := seg_append.1 hr.seg
  have hafter : ∀ c ∈ pre, c ≠ after h suf := by
    intro c hc heq
    rcases List.mem_cons.1 (after_mem h suf) with hs | hs
    · exact (List.nodup_cons.1 hndpre).1 (hs ▸ heq ▸ hc)
    · exact hdisj c (List.mem_cons_of_mem _ hc) (heq ▸ hs)
  have hpre : Seg m' h pre (after h suf) :=
    hsegpre.retarget hndpre hna hpa (fun c _ hcl => hn c hcl)
      (fun c hc => hp c (hafter c hc))
  refine ⟨hnd, ?_⟩
  cases suf with
  | nil => simpa using hpre
  | cons y ys =>
      refine seg_append.2 ⟨hpre, ?_⟩
      refine hsegsuf.2.2.congr (fun c hc => hn c fun heq => ?_)
        (fun c hc => hp c fun heq => ?_)
      · exact hdisj c (heq ▸ before_mem h pre) hc
      · have hndsuf : (h :: y :: ys).Nodup :=
          hnd.sublist ((List.sublist_append_right _ _).cons_cons h)
        simp only [after_cons] at heq
        subst heq
        rcases List.mem_cons.1 hc with rfl | hc
        · exact (List.nodup_cons.1 hndsuf).1 (by simp)
        · exact (List.nodup_cons.1 (List.nodup_cons.1 hndsuf).2).1 hc

-- ============================================================= paths

/-- Following a link from `a` visits `xs` and then reaches `b`. -/
def Path (link : ν → ν) : ν → List ν → ν → Prop
  | a, [], b => link a = b
  | a, x :: xs, b => link a = x ∧ Path link x xs b

theorem path_concat {link : ν → ν} {a b x : ν} {xs : List ν} :
    Path link a (xs ++ [x]) b ↔ Path link a xs x ∧ link x = b := by
  induction xs generalizing a with
  | nil => rfl
  | cons y xs ih => simp only [List.cons_append, Path, ih, and_assoc]

/-- A segment is a path forwards. -/
theorem Seg.path_next {a b : ν} (hs : Seg m a xs b) : Path m.next a xs b := by
  induction xs generalizing a with
  | nil => exact hs.1
  | cons x xs ih => exact ⟨hs.1, ih hs.2.2⟩

/-- And a path backwards, from its end. -/
theorem Seg.path_prev {a b : ν} (hs : Seg m a xs b) :
    Path m.prev b xs.reverse a := by
  induction xs generalizing a with
  | nil => exact hs.2
  | cons x xs ih =>
      rw [List.reverse_cons, path_concat]
      exact ⟨ih hs.2.2, hs.2.1⟩

theorem Path.linked {link : ν → ν} {a b : ν} (h : Path link a xs b) :
    Linked link (a :: (xs ++ [b])) := by
  induction xs generalizing a with
  | nil => exact linked_cons_cons.2 ⟨h, linked_singleton⟩
  | cons x xs ih => exact linked_cons_cons.2 ⟨h.1, ih h.2⟩

/-- A ring is a circle forwards. -/
theorem IsRing.circle_next (hr : IsRing m h xs) : Circle m.next (h :: xs) :=
  hr.seg.path_next.linked

/-- And a circle backwards. -/
theorem IsRing.circle_prev (hr : IsRing m h xs) :
    Circle m.prev (h :: xs.reverse) :=
  hr.seg.path_prev.linked

/-- No path leads away from a cell that is linked to itself. -/
theorem Path.stuck {link : ν → ν} {a b : ν} (hself : link a = a)
    (hne : a ≠ b) : ¬ Path link a xs b := by
  induction xs with
  | nil =>
      intro hpath
      exact hne (hself.symm.trans hpath)
  | cons x xs ih =>
      intro hpath
      obtain ⟨hx, hrest⟩ := hpath
      rw [hself] at hx
      rw [← hx] at hrest
      exact ih hrest

end Ucore.Ring
