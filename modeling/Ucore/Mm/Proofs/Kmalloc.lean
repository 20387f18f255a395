/-
The SLOB heap keeps its free list a circle of separated blocks.

`FreeList` ties the memory to a list of extents: the pointers visit their
first addresses in order and come back, the header of each carries its
length, no two of them touch, and `slobfree` is one of them. Each function
is an operation on that list: the search of `slob_alloc` takes the first
extent after `slobfree` that is large enough and carves it, `slob_free`
coalesces. The arena is what keeps the circle from being cut: no page
touches it, so it is never merged, and it is too small to be handed out.
-/
import Ucore.Lib.Circle
import Ucore.Lib.Extents
import Ucore.Mm.Kmalloc

namespace Ucore.Slob

open Extent

variable {s s' : State} {l pre suf ys : List Extent} {a c e n : Extent}
  {b m x u fuel size page p arena : Nat} {w w' : World}

-- ===================================================== the free list

/-- The first addresses of extents. -/
def starts (l : List Extent) : List Nat := l.map start

@[simp] theorem starts_nil : starts [] = [] := rfl

@[simp] theorem starts_cons : starts (e :: l) = e.start :: starts l := rfl

@[simp] theorem starts_append : starts (pre ++ suf) = starts pre ++ starts suf :=
  List.map_append

theorem mem_starts : x ∈ starts l ↔ ∃ e ∈ l, e.start = x := List.mem_map

/-- The free list is the circle of the extents `l`. -/
structure FreeList (s : State) (l : List Extent) : Prop where
  circle : Circle s.next (starts l)
  separated : Separated l
  units : ∀ e ∈ l, e.len = s.units e.start * slobUnit
  slobfree : s.slobfree ∈ starts l

theorem nodup_starts (h : Separated l) : (starts l).Nodup := by
  have hlt : (starts l).Pairwise (· < ·) := by
    refine List.pairwise_map.2 (h.gap.imp ?_)
    intro a b hab
    have hle : a.start ≤ a.stop := Nat.le_add_right _ _
    omega
  exact hlt.imp (fun hab => Nat.ne_of_lt hab)

-- ======================================================= giving back

/-- The loop goes on as long as the pairs it meets enclose no place for `b`. -/
theorem findPoint_eq (xs : List Nat) (hlinked : Linked s.next (x :: xs))
    (hbeyond : (x :: xs).Pairwise (beyond b))
    (hlast : (x :: xs).getLast (List.cons_ne_nil x xs) = m)
    (hstop : ¬ beyond b m (s.next m)) (hfuel : xs.length < fuel) :
    findPoint s b fuel x = some m := by
  induction xs generalizing x fuel with
  | nil =>
      obtain ⟨fuel, rfl⟩ := Nat.exists_eq_add_one.2 hfuel
      obtain rfl : x = m := hlast
      unfold findPoint
      rw [if_neg hstop]
  | cons y xs ih =>
      obtain ⟨fuel, rfl⟩ := Nat.exists_eq_add_one.2 (Nat.zero_lt_of_lt hfuel)
      obtain ⟨hnext, hrest⟩ := linked_cons_cons.1 hlinked
      obtain ⟨hx, hpair⟩ := List.pairwise_cons.1 hbeyond
      have hgo : beyond b x (s.next x) := by
        rw [hnext]
        exact hx y List.mem_cons_self
      unfold findPoint
      rw [if_pos hgo, hnext]
      refine ih hrest hpair ?_ (Nat.lt_of_succ_lt_succ hfuel)
      rw [← hlast, List.getLast_cons_cons]

/-- The first half of what `slob_free` does after the search: the block, merged
with the one it touches, points at what follows. -/
def joinRight (b cur : Nat) (s : State) : State :=
  if b + s.units b * slobUnit = s.next cur then
    (s.setUnits b (s.units b + s.units (s.next cur))).setNext b
      (s.next (s.next cur))
  else s.setNext b (s.next cur)

/-- The second half: the block before gets it, or points at it. -/
def joinLeft (b cur : Nat) (s : State) : State :=
  if cur + s.units cur * slobUnit = b then
    (s.setUnits cur (s.units cur + s.units b)).setNext cur (s.next b)
  else s.setNext cur b

theorem joinBlock_eq (b cur : Nat) (s : State) : joinBlock b cur s
    = { joinLeft b cur (joinRight b cur s) with slobfree := cur } := rfl

/-- Nothing else changes. -/
theorem joinRight_frame (b cur : Nat) (s : State) :
    (joinRight b cur s).bigblocks = s.bigblocks
      ∧ ∀ q, q ≠ b → (joinRight b cur s).units q = s.units q
        ∧ (joinRight b cur s).next q = s.next q := by
  unfold joinRight
  split
  case isTrue _ =>
    refine ⟨rfl, fun q hq => ?_⟩
    simp [State.setUnits, State.setNext, hq]
  case isFalse _ =>
    refine ⟨rfl, fun q hq => ?_⟩
    simp [State.setNext, hq]

theorem joinLeft_frame (b cur : Nat) (s : State) :
    (joinLeft b cur s).bigblocks = s.bigblocks
      ∧ ∀ q, q ≠ cur → (joinLeft b cur s).units q = s.units q
        ∧ (joinLeft b cur s).next q = s.next q := by
  unfold joinLeft
  split
  case isTrue _ =>
    refine ⟨rfl, fun q hq => ?_⟩
    simp [State.setUnits, State.setNext, hq]
  case isFalse _ =>
    refine ⟨rfl, fun q hq => ?_⟩
    simp [State.setNext, hq]

theorem joinRight_spec (hcircle : Circle s.next (c.start :: starts ys))
    (hnodup : (b :: c.start :: starts ys).Nodup)
    (hys : ∀ a ∈ ys, a.len = s.units a.start * slobUnit)
    (he : e = ⟨b, s.units b * slobUnit⟩) (hne : e.stop ≠ c.start) :
    Linked (joinRight b c.start s).next
        (b :: (starts (mergeRight e ys).2 ++ [c.start]))
      ∧ (mergeRight e ys).1.len = (joinRight b c.start s).units b * slobUnit := by
  obtain ⟨-, hframe⟩ := joinRight_frame b c.start s
  obtain ⟨hb, -⟩ := List.nodup_cons.1 hnodup
  have hby : ∀ x ∈ starts ys, x ≠ b := fun x hx heq =>
    hb (heq ▸ List.mem_cons_of_mem _ hx)
  have hstop : e.stop = b + s.units b * slobUnit := by rw [he]; rfl
  have hlen : e.len = s.units b * slobUnit := by rw [he]
  have hapart : ∀ x, s.next c.start = x → e.stop ≠ x →
      (joinRight b c.start s).next b = s.next c.start
        ∧ (joinRight b c.start s).units b = s.units b := by
    intro x hx hex
    unfold joinRight
    rw [if_neg (by rw [hx, ← hstop]; exact hex)]
    simp [State.setNext]
  cases ys with
  | nil =>
      obtain ⟨hself, -⟩ := linked_cons_cons.1 hcircle
      obtain ⟨hnext, hunits⟩ := hapart _ hself hne
      refine ⟨Linked.from hcircle hnext (fun x hx => by cases hx), ?_⟩
      rw [hunits]
      exact hlen
  | cons y ys =>
      have hcy : s.next c.start = y.start := hcircle.next
      by_cases htouch : e.stop = y.start
      · have hmerge : mergeRight e (y :: ys)
            = (⟨e.start, e.len + y.len⟩, ys) := by
          simp [mergeRight, htouch]
        have hright : joinRight b c.start s
            = (s.setUnits b (s.units b + s.units y.start)).setNext b
              (s.next y.start) := by
          unfold joinRight
          rw [if_pos (by rw [hcy, ← hstop]; exact htouch), hcy]
        rw [hmerge]
        refine ⟨?_, ?_⟩
        · refine Linked.from (linked_cons_cons.1 hcircle).2 ?_ ?_
          · rw [hright]
            simp [State.setNext]
          · intro x hx
            exact (hframe x (hby x (List.mem_cons_of_mem _ hx))).2
        · rw [hright]
          simp only [State.setNext, State.setUnits, Function.update_self]
          rw [hlen, hys y List.mem_cons_self, Nat.add_mul]
      · have hmerge : mergeRight e (y :: ys) = (e, y :: ys) := by
          simp [mergeRight, htouch]
        obtain ⟨hnext, hunits⟩ := hapart _ hcy htouch
        rw [hmerge]
        refine ⟨Linked.from hcircle hnext ?_, ?_⟩
        · intro x hx
          exact (hframe x (hby x hx)).2
        · rw [hunits]
          exact hlen

theorem joinLeft_spec {xs : List Nat}
    (hlinked : Linked s.next (b :: (xs ++ [x]))) (hbx : b ≠ x) (hx : x ∉ xs) :
    if x + s.units x * slobUnit = b then
      Circle (joinLeft b x s).next (x :: xs)
        ∧ (joinLeft b x s).units x = s.units x + s.units b
    else Circle (joinLeft b x s).next (x :: b :: xs)
      ∧ (joinLeft b x s).units x = s.units x := by
  obtain ⟨-, hframe⟩ := joinLeft_frame b x s
  have hxs : ∀ y ∈ xs, (joinLeft b x s).next y = s.next y := fun y hy =>
    (hframe y (fun heq => hx (heq ▸ hy))).2
  split
  case isTrue htouch =>
    have hleft : joinLeft b x s
        = (s.setUnits x (s.units x + s.units b)).setNext x (s.next b) := by
      unfold joinLeft
      rw [if_pos htouch]
    refine ⟨Linked.from hlinked ?_ hxs, ?_⟩
    · rw [hleft]
      simp [State.setNext, State.setUnits]
    · rw [hleft]
      simp [State.setNext, State.setUnits]
  case isFalse htouch =>
    have hleft : joinLeft b x s = s.setNext x b := by
      unfold joinLeft
      rw [if_neg htouch]
    refine ⟨linked_cons_cons.2 ⟨?_, ?_⟩, ?_⟩
    · rw [hleft]
      simp [State.setNext]
    · refine Linked.from hlinked (hframe b hbx).2 hxs
    · rw [hleft]
      simp [State.setNext]

/-- What comes back from a search that ends at `c`, with `ys` the other
members from there on: the block and what it touches, as one extent. -/
theorem joinBlock_spec (hcircle : Circle s.next (c.start :: starts ys))
    (hnodup : (b :: c.start :: starts ys).Nodup)
    (hc : c.len = s.units c.start * slobUnit)
    (hys : ∀ a ∈ ys, a.len = s.units a.start * slobUnit)
    (he : e = ⟨b, s.units b * slobUnit⟩) (hne : e.stop ≠ c.start)
    (hs : s' = joinBlock b c.start s) :
    (if c.stop = b then
        Circle s'.next (c.start :: starts (mergeRight e ys).2)
          ∧ c.len + (mergeRight e ys).1.len = s'.units c.start * slobUnit
      else
        Circle s'.next (c.start :: b :: starts (mergeRight e ys).2)
          ∧ c.len = s'.units c.start * slobUnit
          ∧ (mergeRight e ys).1.len = s'.units b * slobUnit)
      ∧ s'.slobfree = c.start ∧ s'.bigblocks = s.bigblocks
      ∧ ∀ q, q ≠ b → q ≠ c.start → s'.units q = s.units q := by
  obtain ⟨hb, hcys⟩ := List.nodup_cons.1 hnodup
  obtain ⟨hcy, -⟩ := List.nodup_cons.1 hcys
  have hbc : b ≠ c.start := fun heq => hb (heq ▸ List.mem_cons_self)
  obtain ⟨hbig, hframe⟩ := joinRight_frame b c.start s
  obtain ⟨hbig', hframe'⟩ := joinLeft_frame b c.start (joinRight b c.start s)
  obtain ⟨hlinked, hlen⟩ := joinRight_spec hcircle hnodup hys he hne
  have hcm : c.start ∉ starts (mergeRight e ys).2 := by
    intro hmem
    obtain ⟨a, ha, hac⟩ := mem_starts.1 hmem
    exact hcy (mem_starts.2 ⟨a, mem_of_mem_mergeRight ha, hac⟩)
  have hunits : (joinRight b c.start s).units c.start = s.units c.start :=
    (hframe c.start (Ne.symm hbc)).1
  have hleft := joinLeft_spec hlinked hbc hcm
  have hstop : c.start + (joinRight b c.start s).units c.start * slobUnit
      = c.stop := by
    rw [hunits, ← hc]
    rfl
  rw [hstop] at hleft
  rw [joinBlock_eq] at hs
  subst hs
  refine ⟨?_, rfl, hbig'.trans hbig, fun q hqb hqc => ?_⟩
  · split
    case isTrue htouch =>
      rw [if_pos htouch] at hleft
      refine ⟨hleft.1, ?_⟩
      show _ = (joinLeft b c.start (joinRight b c.start s)).units c.start * _
      rw [hleft.2, hunits, Nat.add_mul, ← hc, ← hlen]
    case isFalse htouch =>
      rw [if_neg htouch] at hleft
      refine ⟨hleft.1, ?_, ?_⟩
      · show _ = (joinLeft b c.start (joinRight b c.start s)).units c.start * _
        rw [hleft.2, hunits, ← hc]
      · show _ = (joinLeft b c.start (joinRight b c.start s)).units b * _
        rw [(hframe' b hbc).1, ← hlen]
  · show (joinLeft b c.start (joinRight b c.start s)).units q = s.units q
    rw [(hframe' q hqc).1, (hframe q hqb).1]

-- =============================================== the free list, ctd.

/-- Members on either side of `b`, in the order of the circle. -/
theorem pairwise_beyond (hsep : Separated (pre ++ suf))
    (hpre : ∀ a ∈ pre, a.start < b) (hsuf : ∀ a ∈ suf, b < a.start) :
    (starts (suf ++ pre)).Pairwise (beyond b) := by
  obtain ⟨hp, hs, -⟩ := separated_append.1 hsep
  have hup : ∀ {l : List Extent}, Separated l →
      l.Pairwise fun x y => x.start < y.start := by
    intro l hl
    refine hl.gap.imp ?_
    intro x y hxy
    have hle : x.start ≤ x.stop := Nat.le_add_right _ _
    omega
  refine List.pairwise_map.2 (List.pairwise_append.2 ⟨?_, ?_, ?_⟩)
  · refine (hup hs).imp_of_mem ?_
    intro x y hx hy hxy
    have := hsuf x hx
    unfold beyond
    omega
  · refine (hup hp).imp_of_mem ?_
    intro x y hx hy hxy
    have := hpre y hy
    unfold beyond
    omega
  · intro x hx y hy
    have := hsuf x hx
    have := hpre y hy
    unfold beyond
    omega

/-- The search of `slob_free`, wherever on the circle it begins. -/
theorem findPoint_circle {xs : List Nat} (hcircle : Circle s.next (m :: xs))
    (hbeyond : (xs ++ [m]).Pairwise (beyond b))
    (hstop : ¬ beyond b m (s.next m)) (hx : x ∈ m :: xs)
    (hfuel : xs.length < fuel) : findPoint s b fuel x = some m := by
  have hmem : x ∈ xs ++ [m] := by
    rcases List.mem_cons.1 hx with rfl | hx
    · exact List.mem_append_right _ List.mem_cons_self
    · exact List.mem_append_left _ hx
  have hlinked : Linked s.next (xs ++ [m]) := List.IsChain.tail hcircle
  have hlast : (xs ++ [m]).getLast? = some m := List.getLast?_concat
  have hlen : (xs ++ [m]).length = xs.length + 1 := List.length_append
  obtain ⟨as, bs, hcut⟩ := List.append_of_mem hmem
  rw [hcut] at hlinked hbeyond hlast hlen
  rw [List.length_append, List.length_cons] at hlen
  refine findPoint_eq bs ?_ ?_ ?_ hstop (by omega)
  · exact (linked_split.1 hlinked).2
  · exact (List.pairwise_append.1 hbeyond).2.1
  · rw [List.getLast?_append, List.getLast?_eq_some_getLast
      (List.cons_ne_nil x bs)] at hlast
    simpa using hlast

/-- Everything but the header of the block and of the block before is left
alone. -/
structure Kept (s s' : State) (b : Nat) (l : List Extent) : Prop where
  bigblocks : s'.bigblocks = s.bigblocks
  units : ∀ q, q ≠ b → q ∉ starts l → s'.units q = s.units q

/-- A block `e` at `b` that is put in between the members `pre` and `suf`. -/
structure Place (s : State) (pre suf : List Extent) (b : Nat) (e : Extent) :
    Prop where
  list : FreeList s (pre ++ suf)
  block : e = ⟨b, s.units b * slobUnit⟩
  pos : 0 < e.len
  above : ∀ a ∈ pre, a.stop ≤ e.start
  below : ∀ a ∈ suf, e.stop ≤ a.start

theorem Place.start_eq (h : Place s pre suf b e) : e.start = b := by
  rw [h.block]

theorem Place.pre_lt (h : Place s pre suf b e) (ha : a ∈ pre) :
    a.start < b := by
  have hb := h.start_eq
  have hle := h.above a ha
  have hpos := h.list.separated.pos a (List.mem_append_left _ ha)
  simp only [stop] at hle
  omega

theorem Place.lt_suf (h : Place s pre suf b e) (ha : a ∈ suf) :
    b < a.start := by
  have hb := h.start_eq
  have hpos := h.pos
  have hle := h.below a ha
  simp only [stop] at hle
  omega

theorem Place.nodup (h : Place s pre suf b e) :
    (b :: starts (pre ++ suf)).Nodup := by
  refine List.nodup_cons.2 ⟨?_, nodup_starts h.list.separated⟩
  intro hmem
  obtain ⟨a, ha, hab⟩ := mem_starts.1 hmem
  rcases List.mem_append.1 ha with ha | ha
  · exact Nat.lt_irrefl _ (hab ▸ h.pre_lt ha)
  · exact Nat.lt_irrefl _ (hab ▸ h.lt_suf ha)

theorem Place.pairwise (h : Place s pre suf b e) :
    (starts (suf ++ pre)).Pairwise (Slob.beyond b) :=
  pairwise_beyond h.list.separated (fun _ ha => h.pre_lt ha)
    (fun _ ha => h.lt_suf ha)

theorem Place.separated (h : Place s pre suf b e) :
    Separated (Extent.coalesce pre e suf) :=
  coalesce_separated h.list.separated h.pos h.above h.below

/-- The search of `slob_free`, and joining what it finds, put the block on the
free list, merged with those it touches. -/
def PutIn (s : State) (fuel b : Nat) (pre : List Extent) (e : Extent)
    (suf : List Extent) : Prop :=
  ∃ m, findPoint s b fuel s.slobfree = some m
    ∧ FreeList (joinBlock b m s) (Extent.coalesce pre e suf)
    ∧ Kept s (joinBlock b m s) b (pre ++ suf)

/-- A block before all others: the search ends at the last of them. It may not
be the only one and be touched, too: the list would be left without it. -/
theorem Place.putIn_front {suf' : List Extent}
    (h : Place s [] (suf' ++ [c]) b e) (hwrap : suf' = [] → e.stop ≠ c.start)
    (hfuel : (suf' ++ [c]).length < fuel) :
    PutIn s fuel b [] e (suf' ++ [c]) := by
  have hb := h.start_eq
  have hbeyond := h.pairwise
  have hlist : FreeList s (suf' ++ [c]) := h.list
  rw [List.append_nil] at hbeyond
  have hcb : b < c.start := h.lt_suf (by simp)
  have hcut : Circle s.next (starts suf' ++ c.start :: starts []) := by
    have hcircle := hlist.circle
    rw [starts_append] at hcircle
    exact hcircle
  have hcircle : Circle s.next (c.start :: starts suf') := hcut.rotate
  have hbehind : ∀ a ∈ suf', a.start < c.start := by
    intro a ha
    have hgap := (separated_append.1 hlist.separated).2.2 a ha c
      List.mem_cons_self
    have hle : a.start ≤ a.stop := Nat.le_add_right _ _
    omega
  have hnext : ∃ a ∈ suf' ++ [c], s.next c.start = a.start := by
    cases suf' with
    | nil => exact ⟨c, by simp, (linked_cons_cons.1 hcircle).1⟩
    | cons a suf' => exact ⟨a, by simp, hcircle.next⟩
  have hend : ¬ beyond b c.start (s.next c.start) := by
    obtain ⟨a, ha, hna⟩ := hnext
    have hba := h.lt_suf ha
    have hac : a.start ≤ c.start := by
      rcases List.mem_append.1 ha with ha | ha
      · exact (hbehind a ha).le
      · rw [List.mem_singleton.1 ha]
    unfold beyond
    omega
  have hne : e.stop ≠ c.start := by
    cases suf' with
    | nil => exact hwrap rfl
    | cons a suf' =>
        have hle := h.below a (by simp)
        have hlt := hbehind a List.mem_cons_self
        omega
  have hper : (c.start :: starts suf').Perm (starts (suf' ++ [c])) := by
    rw [starts_append]
    exact (List.perm_append_singleton c.start (starts suf')).symm
  have hfind : findPoint s b fuel s.slobfree = some c.start := by
    refine findPoint_circle hcircle ?_ hend ?_ ?_
    · rw [starts_append] at hbeyond
      exact hbeyond
    · exact hper.symm.subset hlist.slobfree
    · rw [List.length_append] at hfuel
      unfold starts
      rw [List.length_map]
      omega
  have hjoin := joinBlock_spec hcircle
    ((hper.cons b).symm.nodup h.nodup) (hlist.units c (by simp))
    (fun a ha => hlist.units a (List.mem_append_left _ ha)) h.block hne rfl
  have htouch : c.stop ≠ b := by
    have hle : c.start ≤ c.stop := Nat.le_add_right _ _
    omega
  rw [if_neg htouch] at hjoin
  obtain ⟨⟨hcirc, hclen, hblen⟩, hfree, hbig, hkept⟩ := hjoin
  have hmerge : Extent.coalesce [] e (suf' ++ [c])
      = ((mergeRight e suf').1 :: (mergeRight e suf').2) ++ [c] := by
    have happ : mergeRight e (suf' ++ [c])
        = ((mergeRight e suf').1, (mergeRight e suf').2 ++ [c]) := by
      refine mergeRight_append ?_
      intro y hy _
      rw [List.mem_singleton.1 hy]
      exact hne
    show (mergeRight e (suf' ++ [c])).1 :: (mergeRight e (suf' ++ [c])).2 = _
    rw [happ]
    rfl
  refine ⟨c.start, hfind, ⟨?_, h.separated, ?_, ?_⟩, hbig, ?_⟩
  · rw [hmerge, starts_append, starts_cons, mergeRight_start, hb]
    refine Circle.unrotate [] ?_
    exact hcirc
  · rw [hmerge]
    intro a ha
    rcases List.mem_append.1 ha with ha | ha
    · rcases List.mem_cons.1 ha with rfl | ha
      · rw [mergeRight_start, hb]
        exact hblen
      · have hmem := mem_of_mem_mergeRight ha
        have hlt := hbehind a hmem
        have hba := h.lt_suf (List.mem_append_left _ hmem)
        rw [hkept a.start (by omega) (by omega)]
        exact hlist.units a (List.mem_append_left _ hmem)
    · rw [List.mem_singleton.1 ha]
      exact hclen
  · rw [hfree, hmerge, starts_append]
    simp
  · intro q hqb hq
    refine hkept q hqb (fun heq => hq ?_)
    rw [heq, starts_append]
    simp

/-- A block after others: the search ends at the last of these. -/
theorem Place.putIn_after {pre' : List Extent}
    (h : Place s (pre' ++ [c]) suf b e)
    (hfuel : (pre' ++ [c] ++ suf).length < fuel) :
    PutIn s fuel b (pre' ++ [c]) e suf := by
  have hb := h.start_eq
  have hbeyond := h.pairwise
  have hlist := h.list
  have hstop : b < e.stop := by
    have hpos := h.pos
    simp only [stop]
    omega
  have hcb : c.start < b := h.pre_lt (by simp)
  have hcut : Circle s.next (starts pre' ++ c.start :: starts suf) := by
    have hcircle := hlist.circle
    rw [List.append_assoc, starts_append] at hcircle
    exact hcircle
  have hcircle : Circle s.next (c.start :: starts (suf ++ pre')) := by
    rw [starts_append]
    exact hcut.rotate
  have hbehind : ∀ a ∈ pre', a.start < c.start := by
    intro a ha
    have hgap := (separated_append.1 (separated_append.1 hlist.separated).1).2.2
      a ha c List.mem_cons_self
    have hle : a.start ≤ a.stop := Nat.le_add_right _ _
    omega
  have hend : ¬ beyond b c.start (s.next c.start) := by
    unfold beyond
    cases suf with
    | cons a suf =>
        have hna : s.next c.start = a.start := hcircle.next
        have hba := h.lt_suf List.mem_cons_self
        omega
    | nil =>
        cases pre' with
        | nil =>
            have hna : s.next c.start = c.start :=
              (linked_cons_cons.1 hcircle).1
            omega
        | cons a pre' =>
            have hna : s.next c.start = a.start := hcircle.next
            have hlt := hbehind a List.mem_cons_self
            omega
  have hne : e.stop ≠ c.start := by omega
  have hper : (c.start :: starts (suf ++ pre')).Perm
      (starts (pre' ++ [c] ++ suf)) := by
    simp only [starts_append, starts_cons, List.append_assoc,
      List.singleton_append]
    exact (List.Perm.cons _ List.perm_append_comm).trans
      List.perm_middle.symm
  have hfind : findPoint s b fuel s.slobfree = some c.start := by
    refine findPoint_circle hcircle ?_ hend ?_ ?_
    · rw [← List.append_assoc, starts_append] at hbeyond
      exact hbeyond
    · exact hper.symm.subset hlist.slobfree
    · simp only [List.length_append, List.length_cons,
        List.length_nil] at hfuel
      simp only [starts, List.length_map, List.length_append]
      omega
  have hold : ∀ a ∈ suf ++ pre', a ∈ pre' ++ [c] ++ suf ∧ a.start ≠ b
      ∧ a.start ≠ c.start := by
    intro a ha
    rcases List.mem_append.1 ha with ha | ha
    · have hba := h.lt_suf ha
      exact ⟨by simp [ha], by omega, by omega⟩
    · have hlt := hbehind a ha
      exact ⟨by simp [ha], by omega, by omega⟩
  have hjoin := joinBlock_spec hcircle
    ((hper.cons b).symm.nodup h.nodup) (hlist.units c (by simp))
    (fun a ha => hlist.units a (hold a ha).1) h.block hne rfl
  have happ : mergeRight e (suf ++ pre')
      = ((mergeRight e suf).1, (mergeRight e suf).2 ++ pre') := by
    refine mergeRight_append ?_
    intro y hy _
    have hlt := hbehind y hy
    omega
  rw [happ] at hjoin
  obtain ⟨hjoined, hfree, hbig, hkept⟩ := hjoin
  have hrest : ∀ a ∈ pre' ++ (mergeRight e suf).2,
      a.len = (joinBlock b c.start s).units a.start * slobUnit := by
    intro a ha
    have hmem : a ∈ suf ++ pre' := by
      rcases List.mem_append.1 ha with ha | ha
      · exact List.mem_append_right _ ha
      · exact List.mem_append_left _ (mem_of_mem_mergeRight ha)
    obtain ⟨hin, hab, hac⟩ := hold a hmem
    rw [hkept a.start hab hac]
    exact hlist.units a hin
  refine ⟨c.start, hfind, ?_, hbig, ?_⟩
  · by_cases htouch : c.stop = b
    · rw [if_pos htouch] at hjoined
      obtain ⟨hcirc, hlen⟩ := hjoined
      have hmerge : Extent.coalesce (pre' ++ [c]) e suf
          = pre' ++ ⟨c.start, c.len + (mergeRight e suf).1.len⟩
            :: (mergeRight e suf).2 := by
        unfold Extent.coalesce
        rw [mergeLeft_concat, if_pos (htouch.trans hb.symm)]
        simp only
        rw [mergeRight_widen (by rw [hb]; exact htouch)]
      refine ⟨?_, h.separated, ?_, ?_⟩
      · rw [hmerge, starts_append, starts_cons]
        rw [starts_append] at hcirc
        exact Circle.unrotate _ hcirc
      · rw [hmerge]
        intro a ha
        rcases List.mem_append.1 ha with ha | ha
        · exact hrest a (List.mem_append_left _ ha)
        · rcases List.mem_cons.1 ha with rfl | ha
          · exact hlen
          · exact hrest a (List.mem_append_right _ ha)
      · rw [hfree, hmerge, starts_append]
        simp
    · rw [if_neg htouch] at hjoined
      obtain ⟨hcirc, hclen, hblen⟩ := hjoined
      have hmerge : Extent.coalesce (pre' ++ [c]) e suf
          = pre' ++ c :: (mergeRight e suf).1 :: (mergeRight e suf).2 := by
        unfold Extent.coalesce
        rw [mergeLeft_concat, if_neg (by rw [hb]; exact htouch)]
        simp
      refine ⟨?_, h.separated, ?_, ?_⟩
      · rw [hmerge, starts_append, starts_cons, starts_cons,
          mergeRight_start, hb]
        rw [starts_append] at hcirc
        exact Circle.unrotate (b :: starts _) hcirc
      · rw [hmerge]
        intro a ha
        rcases List.mem_append.1 ha with ha | ha
        · exact hrest a (List.mem_append_left _ ha)
        · rcases List.mem_cons.1 ha with rfl | ha
          · exact hclen
          · rcases List.mem_cons.1 ha with rfl | ha
            · rw [mergeRight_start, hb]
              exact hblen
            · exact hrest a (List.mem_append_right _ ha)
      · rw [hfree, hmerge, starts_append]
        simp
  · intro q hqb hq
    refine hkept q hqb (fun heq => hq ?_)
    rw [heq, starts_append]
    simp

theorem Place.putIn (h : Place s pre suf b e)
    (hwrap : ∀ c, pre = [] → suf = [c] → e.stop ≠ c.start)
    (hfuel : (pre ++ suf).length < fuel) : PutIn s fuel b pre e suf := by
  rcases List.eq_nil_or_concat pre with rfl | ⟨pre', c, rfl⟩
  · rcases List.eq_nil_or_concat suf with rfl | ⟨suf', c, rfl⟩
    · exact h.list.circle.elim
    · rw [List.concat_eq_append] at *
      refine h.putIn_front (fun hnil => ?_) hfuel
      exact hwrap c rfl (by rw [hnil]; rfl)
  · rw [List.concat_eq_append] at *
    exact h.putIn_after hfuel

-- ======================================================== taking out

/-- Nothing but the block taken and what is left of it changes. -/
theorem takeBlock_frame (u p cur : Nat) (s : State) :
    (takeBlock u p cur s).bigblocks = s.bigblocks
      ∧ (takeBlock u p cur s).slobfree = p
      ∧ ∀ q, q ≠ cur → (u ≠ s.units cur → q ≠ cur + u * slobUnit) →
        (takeBlock u p cur s).units q = s.units q := by
  unfold takeBlock
  split
  case isTrue _ => exact ⟨rfl, rfl, fun _ _ _ => rfl⟩
  case isFalse hne =>
    refine ⟨rfl, rfl, fun q hq hqr => ?_⟩
    have hqr := hqr (Ne.symm hne)
    simp [State.setNext, State.setUnits, hq, hqr]

/-- Taking the first units of the member after `p`. -/
theorem takeBlock_spec {os : List Nat}
    (hcircle : Circle s.next (p :: e.start :: os))
    (hnodup : (p :: e.start :: os).Nodup)
    (hlen : e.len = s.units e.start * slobUnit) (hu : 0 < u)
    (hle : u ≤ s.units e.start)
    (hrest : u < s.units e.start →
      e.start + u * slobUnit ∉ p :: e.start :: os) :
    Circle (takeBlock u p e.start s).next
        (p :: (starts (rest e (u * slobUnit)) ++ os))
      ∧ (takeBlock u p e.start s).units e.start = u
      ∧ ∀ a ∈ rest e (u * slobUnit),
        a.len = (takeBlock u p e.start s).units a.start * slobUnit := by
  obtain ⟨hp, hnd⟩ := List.nodup_cons.1 hnodup
  obtain ⟨he, -⟩ := List.nodup_cons.1 hnd
  have hpe : p ≠ e.start := fun heq => hp (heq ▸ List.mem_cons_self)
  have hpos : ∀ x ∈ os, x ≠ p := fun x hx heq =>
    hp (heq ▸ List.mem_cons_of_mem _ hx)
  have hunit : 0 < slobUnit := by decide
  rcases Nat.lt_or_eq_of_le hle with hlt | heq
  · have hcut : rest e (u * slobUnit)
        = [⟨e.start + u * slobUnit, e.len - u * slobUnit⟩] := by
      unfold rest
      rw [if_pos]
      rw [hlen]
      exact Nat.mul_lt_mul_of_pos_right hlt hunit
    have hrp := hrest hlt
    have hr : e.start + u * slobUnit ≠ p := fun heq =>
      hrp (heq ▸ List.mem_cons_self)
    have hre : e.start + u * slobUnit ≠ e.start := by
      have := Nat.mul_pos hu hunit
      omega
    have hro : ∀ x ∈ os, x ≠ e.start + u * slobUnit := fun x hx heq =>
      hrp (heq ▸ List.mem_cons_of_mem _ (List.mem_cons_of_mem _ hx))
    have htake : takeBlock u p e.start s
        = { (((s.setNext p (e.start + u * slobUnit)).setUnits
              (e.start + u * slobUnit) (s.units e.start - u)).setNext
              (e.start + u * slobUnit) (s.next e.start)).setUnits e.start u
            with slobfree := p } := by
      unfold takeBlock
      rw [if_neg (by omega)]
      simp [State.setNext, State.setUnits, Ne.symm hpe]
    rw [hcut, htake]
    refine ⟨?_, ?_, ?_⟩
    · refine hcircle.replace ?_ ?_ ?_
      · simp [State.setNext, State.setUnits, Ne.symm hr]
      · simp [State.setNext, State.setUnits]
      · intro x hx
        simp [State.setNext, State.setUnits, hpos x hx, hro x hx]
    · simp [State.setUnits]
    · intro a ha
      rw [List.mem_singleton.1 ha]
      simp only [State.setUnits, State.setNext, Function.update_of_ne hre,
        Function.update_self]
      rw [hlen, Nat.sub_mul]
  · have hcut : rest e (u * slobUnit) = [] := by
      unfold rest
      rw [if_neg]
      rw [hlen, heq]
      exact Nat.lt_irrefl _
    have htake : takeBlock u p e.start s
        = { s.setNext p (s.next e.start) with slobfree := p } := by
      unfold takeBlock
      rw [if_pos heq.symm]
    rw [hcut, htake]
    refine ⟨hcircle.remove ?_ ?_, heq.symm, fun a ha => by cases ha⟩
    · simp [State.setNext]
    · intro x hx
      simp [State.setNext, hpos x hx]

/-- The other members begin before a member or past its end. -/
theorem start_outside (h : Separated (pre ++ e :: suf)) (ha : a ∈ pre ++ suf) :
    a.start < e.start ∨ e.stop < a.start := by
  obtain ⟨-, hsuf, hgap⟩ := separated_append.1 h
  rcases List.mem_append.1 ha with ha | ha
  · have hae := hgap a ha e List.mem_cons_self
    have hle : a.start ≤ a.stop := Nat.le_add_right _ _
    exact .inl (by omega)
  · exact .inr ((separated_cons.1 hsuf).2.2 a ha)

/-- The member before `e` in the circle. -/
def Before (pre : List Extent) (e : Extent) (suf : List Extent) (p : Nat) :
    Prop :=
  ∀ os c, suf ++ pre = os ++ [c] → p = c.start

/-- Taking units off a member that is not the only one keeps the list. -/
theorem FreeList.take (h : FreeList s (pre ++ e :: suf))
    (hmany : pre ++ suf ≠ []) (hp : Before pre e suf p) (hu : 0 < u)
    (hle : u ≤ s.units e.start) :
    FreeList (takeBlock u p e.start s) (pre ++ rest e (u * slobUnit) ++ suf)
      ∧ (takeBlock u p e.start s).units e.start = u := by
  have hne : suf ++ pre ≠ [] := by
    intro hnil
    obtain ⟨hsuf, hpre⟩ := List.append_eq_nil_iff.1 hnil
    exact hmany (by rw [hsuf, hpre]; rfl)
  rcases List.eq_nil_or_concat (suf ++ pre) with hnil | ⟨os, c, hos⟩
  · exact absurd hnil hne
  rw [List.concat_eq_append] at hos
  obtain rfl : p = c.start := hp os c hos
  have hlen := h.units e (by simp)
  have hunit : 0 < slobUnit := by decide
  have hround : starts (suf ++ pre) = starts os ++ [c.start] := by
    rw [hos, starts_append, starts_cons, starts_nil]
  have hcircle : Circle s.next (c.start :: e.start :: starts os) := by
    have hcut := h.circle
    rw [starts_append, starts_cons] at hcut
    have hrot := hcut.rotate
    rw [← starts_append, hround] at hrot
    exact Circle.swap (e.start :: starts os) [c.start] hrot
  have hperm : (starts (pre ++ e :: suf)).Perm
      (c.start :: e.start :: starts os) := by
    have h1 : (starts (pre ++ e :: suf)).Perm
        (e.start :: starts (suf ++ pre)) := by
      rw [starts_append, starts_cons, starts_append]
      exact List.perm_middle.trans
        (List.Perm.cons _ List.perm_append_comm)
    rw [hround] at h1
    exact h1.trans ((List.Perm.cons _ (List.perm_append_singleton _ _)).trans
      (List.Perm.swap _ _ _))
  have hnodup := hperm.nodup (nodup_starts h.separated)
  have hrest : u < s.units e.start →
      e.start + u * slobUnit ∉ c.start :: e.start :: starts os := by
    intro hlt hmem
    obtain ⟨a, ha, hstart⟩ := mem_starts.1 (hperm.symm.subset hmem)
    have hlo := Nat.mul_pos hu hunit
    have hhi := Nat.mul_lt_mul_of_pos_right hlt hunit
    rcases List.mem_cons.1 (List.perm_middle.subset ha) with rfl | ha
    · omega
    · have hout := start_outside h.separated ha
      simp only [stop] at hout
      omega
  obtain ⟨hcirc, hunits, hlens⟩ :=
    takeBlock_spec hcircle hnodup hlen hu hle hrest
  obtain ⟨-, hfree, hkept⟩ := takeBlock_frame u c.start e.start s
  refine ⟨⟨?_, carve_separated h.separated, ?_, ?_⟩, hunits⟩
  · have hrot : Circle (takeBlock u c.start e.start s).next
        ((starts (rest e (u * slobUnit)) ++ starts os) ++ [c.start]) :=
      Circle.swap [c.start] _ hcirc
    rw [List.append_assoc, ← hround, starts_append, ← List.append_assoc]
      at hrot
    have hend := Circle.swap _ _ hrot
    rw [← List.append_assoc, ← starts_append, ← starts_append] at hend
    exact hend
  · have hold : ∀ a ∈ pre ++ suf, a.len
        = (takeBlock u c.start e.start s).units a.start * slobUnit := by
      intro a ha
      have hout := start_outside h.separated ha
      have hend : e.start + u * slobUnit ≤ e.stop := by
        have := Nat.mul_le_mul_right slobUnit hle
        simp only [stop]
        omega
      rw [hkept a.start (by omega) (fun _ => by omega)]
      exact h.units a (List.perm_middle.symm.subset (List.mem_cons_of_mem e ha))
    intro a ha
    rcases List.mem_append.1 ha with ha | ha
    · rcases List.mem_append.1 ha with ha | ha
      · exact hold a (List.mem_append_left _ ha)
      · exact hlens a ha
    · exact hold a (List.mem_append_right _ ha)
  · have hc : c ∈ suf ++ pre := by
      rw [hos]
      simp
    rw [hfree]
    refine mem_starts.2 ⟨c, ?_, rfl⟩
    rcases List.mem_append.1 hc with hc | hc
    · exact List.mem_append_right _ hc
    · exact List.mem_append_left _ (List.mem_append_left _ hc)

-- ======================================================== the search

theorem allocLoop_fit (h : u ≤ s.units x) (pages : List (Option Nat)) :
    allocLoop size u (fuel + 1) pages p x s
      = some (some x, takeBlock u p x s, pages) := by
  unfold allocLoop
  rw [if_pos h]

theorem allocLoop_next (h : s.units x < u) (hne : x ≠ s.slobfree)
    (pages : List (Option Nat)) :
    allocLoop size u (fuel + 1) pages p x s
      = allocLoop size u fuel pages x (s.next x) s := by
  conv_lhs => unfold allocLoop
  rw [if_neg (by omega), if_neg hne]

/-- The loop of `slob_alloc` passes members that are too small. -/
theorem allocLoop_skip (size fuel : Nat) {as : List Extent}
    (hlinked : Linked s.next (p :: (starts as ++ [e.start])))
    (hsmall : ∀ a ∈ as, s.units a.start < u ∧ a.start ≠ s.slobfree)
    (pages : List (Option Nat)) :
    allocLoop size u (fuel + as.length) pages p (s.next p) s
      = allocLoop size u fuel pages
        ((p :: starts as).getLast (List.cons_ne_nil _ _)) e.start s := by
  induction as generalizing p with
  | nil =>
      obtain ⟨hnext, -⟩ := linked_cons_cons.1 hlinked
      rw [hnext]
      rfl
  | cons a as ih =>
      obtain ⟨hnext, hrest⟩ := linked_cons_cons.1 hlinked
      obtain ⟨hlt, hne⟩ := hsmall a List.mem_cons_self
      rw [hnext, List.length_cons, ← Nat.add_assoc, allocLoop_next hlt hne,
        ih hrest fun b hb => hsmall b (List.mem_cons_of_mem a hb)]
      exact congrArg (fun p => allocLoop size u fuel pages p e.start s)
        (List.getLast_cons_cons ..).symm

/-- The members in the order in which `slob_alloc` comes to them: the one at
`slobfree` is the last. -/
theorem FreeList.order (h : FreeList s l) : ∃ A f B, l = A ++ f :: B
    ∧ f.start = s.slobfree
    ∧ Linked s.next (f.start :: (starts (B ++ A) ++ [f.start]))
    ∧ ∀ a ∈ B ++ A, a.start ≠ s.slobfree := by
  obtain ⟨f, hf, hstart⟩ := mem_starts.1 h.slobfree
  obtain ⟨A, B, rfl⟩ := List.append_of_mem hf
  refine ⟨A, f, B, rfl, hstart, ?_, ?_⟩
  · have hcircle := h.circle
    rw [starts_append, starts_cons] at hcircle
    rw [starts_append]
    exact hcircle.rotate
  · intro a ha
    rw [← hstart]
    have hout := start_outside h.separated (List.perm_append_comm.subset ha)
    have hle : f.start ≤ f.stop := Nat.le_add_right _ _
    omega

/-- When a member is large enough, the loop takes the first it comes to. -/
theorem FreeList.firstFit (h : FreeList s l) (size : Nat)
    (hfit : ∃ e ∈ l, u ≤ s.units e.start) (pages : List (Option Nat)) :
    ∃ pre e suf p, l = pre ++ e :: suf ∧ Before pre e suf p
      ∧ u ≤ s.units e.start ∧ ∀ fuel, l.length < fuel →
        allocLoop size u fuel pages s.slobfree (s.next s.slobfree) s
          = some (some e.start, takeBlock u p e.start s, pages) := by
  obtain ⟨A, f, B, rfl, hstart, hlinked, hne⟩ := h.order
  -- the first fit among the members in the order of the loop
  have hround : ∃ e ∈ (B ++ A) ++ [f], u ≤ s.units e.start := by
    obtain ⟨e, he, hu⟩ := hfit
    refine ⟨e, ?_, hu⟩
    simp only [List.mem_append, List.mem_cons, List.not_mem_nil,
      or_false] at he ⊢
    tauto
  obtain ⟨as, e, bs, hcut, hu, hsmall⟩ : ∃ as e bs,
      (B ++ A) ++ [f] = as ++ e :: bs ∧ u ≤ s.units e.start
        ∧ ∀ a ∈ as, s.units a.start < u := by
    have hfind : ((B ++ A) ++ [f]).find?
        (fun e => decide (u ≤ s.units e.start)) ≠ none := by
      intro hnone
      obtain ⟨e, he, hu⟩ := hround
      have := List.find?_eq_none.1 hnone e he
      simp [hu] at this
    obtain ⟨e, he⟩ := Option.ne_none_iff_exists'.1 hfind
    obtain ⟨hu, as, bs, hcut, hsmall⟩ := List.find?_eq_some_iff_append.1 he
    refine ⟨as, e, bs, hcut, of_decide_eq_true hu, fun a ha => ?_⟩
    have := hsmall a ha
    simpa using this
  have hrun : (∀ a ∈ as, a ∈ B ++ A) → ∀ fuel,
      (A ++ f :: B).length < fuel →
      allocLoop size u fuel pages s.slobfree (s.next s.slobfree) s
        = some (some e.start, takeBlock u
          ((f.start :: starts as).getLast (List.cons_ne_nil _ _)) e.start s,
          pages) := by
    intro has fuel hfuel
    have hpart : Linked s.next (f.start :: (starts as ++ [e.start])) := by
      have hwhole : Linked s.next
          ((f.start :: starts as) ++ e.start :: starts bs) := by
        have hstarts : starts (B ++ A) ++ [f.start]
            = starts as ++ e.start :: starts bs := by
          have := congrArg starts hcut
          simpa using this
        rw [hstarts] at hlinked
        exact hlinked
      exact (linked_split.1 hwhole).1
    have hlen : as.length ≤ (B ++ A).length := by
      have := congrArg List.length hcut
      simp only [List.length_append, List.length_cons, List.length_nil] at this
      simp only [List.length_append]
      omega
    simp only [List.length_append, List.length_cons] at hfuel hlen
    obtain ⟨k, rfl⟩ : ∃ k, fuel = k + 1 + as.length :=
      ⟨fuel - 1 - as.length, by omega⟩
    rw [← hstart, allocLoop_skip size _ hpart
      (fun a ha => ⟨hsmall a ha, hne a (has a ha)⟩), allocLoop_fit hu]
  rcases List.eq_nil_or_concat bs with rfl | ⟨bs, g, rfl⟩
  · -- it is the member at `slobfree`
    obtain ⟨rfl, hfe⟩ := List.append_inj' hcut rfl
    obtain rfl : f = e := List.singleton_inj.1 hfe
    refine ⟨A, f, B, _, rfl, ?_, hu, hrun fun a ha => ha⟩
    intro os c hos
    simp [hos]
  · rw [List.concat_eq_append, ← List.cons_append, ← List.append_assoc] at hcut
    obtain ⟨hcut, -⟩ := List.append_inj' hcut rfl
    have has : ∀ a ∈ as, a ∈ B ++ A := fun a ha =>
      hcut ▸ List.mem_append_left _ ha
    have hlast : ∀ xs os c, xs ++ f :: as = os ++ [c] →
        (f.start :: starts as).getLast (List.cons_ne_nil _ _) = c.start := by
      intro xs os c hos
      have hget := congrArg List.getLast? hos
      rw [List.getLast?_append, List.getLast?_concat,
        List.getLast?_eq_some_getLast (List.cons_ne_nil f as)] at hget
      have hc : (f :: as).getLast (List.cons_ne_nil f as) = c := by
        simpa using hget
      rw [← hc]
      have hmap : ((f :: as).map start).getLast (by simp)
          = ((f :: as).getLast (List.cons_ne_nil f as)).start :=
        List.getLast_map _
      exact hmap
    rcases List.append_eq_append_iff.1 hcut with ⟨as', ha, hb⟩ | ⟨B', ha, hb⟩
    · -- it comes before `slobfree`
      refine ⟨as', e, bs ++ f :: B, _, by rw [hb]; simp, ?_, hu, hrun has⟩
      intro os c hos
      refine hlast bs os c ?_
      rw [← hos, ha]
      simp
    · rcases List.cons_eq_append_iff.1 hb with ⟨rfl, rfl⟩ | ⟨B'', rfl, rfl⟩
      · refine ⟨[], e, bs ++ f :: B, _, by simp, ?_, hu, hrun has⟩
        intro os c hos
        refine hlast bs os c ?_
        rw [← hos, ha]
        simp
      · -- it comes after `slobfree`
        refine ⟨A ++ f :: as, e, B'', _, by rw [ha]; simp, ?_, hu, hrun has⟩
        intro os c hos
        refine hlast (B'' ++ A) os c ?_
        rw [← hos]
        simp

/-- When none is, the loop comes to `slobfree` again. -/
theorem FreeList.noFit (h : FreeList s l) (size fuel : Nat)
    (hsmall : ∀ e ∈ l, s.units e.start < u) (pages : List (Option Nat)) :
    ∃ p, allocLoop size u (fuel + l.length) pages s.slobfree
        (s.next s.slobfree) s
      = allocLoop size u (fuel + 1) pages p s.slobfree s := by
  obtain ⟨A, f, B, rfl, hstart, hlinked, hne⟩ := h.order
  have hskip := allocLoop_skip size (fuel + 1) hlinked
    (fun a ha => ⟨hsmall a ?_, hne a ha⟩) pages
  · rw [hstart] at hskip
    refine ⟨_, Eq.trans ?_ hskip⟩
    rw [List.length_append, List.length_append, List.length_cons]
    congr 1
    omega
  · rcases List.mem_append.1 ha with ha | ha
    · simp [ha]
    · simp [ha]

-- ============================================================== fuel

theorem findPoint_mono {k : Nat} (h : findPoint s b fuel x = some m) :
    findPoint s b (fuel + k) x = some m := by
  induction fuel generalizing x with
  | zero => cases h
  | succ fuel ih =>
      rw [Nat.succ_add]
      unfold findPoint at h ⊢
      split
      case isTrue hgo =>
        rw [if_pos hgo] at h
        exact ih h
      case isFalse hstop =>
        rw [if_neg hstop] at h
        exact h

theorem slobFree_mono {k : Nat} (h : slobFree fuel b size s = some s') :
    slobFree (fuel + k) b size s = some s' := by
  unfold slobFree at h ⊢
  split
  case isTrue hb =>
    rw [if_pos hb] at h
    exact h
  case isFalse hb =>
    rw [if_neg hb] at h
    simp only at h ⊢
    split at h
    case h_1 _ => cases h
    case h_2 cur hfind =>
      rw [findPoint_mono hfind]
      exact h

theorem allocLoop_mono {k : Nat} {pages : List (Option Nat)}
    {r : Option Nat × State × List (Option Nat)}
    (h : allocLoop size u fuel pages p x s = some r) :
    allocLoop size u (fuel + k) pages p x s = some r := by
  induction fuel generalizing pages p x s with
  | zero => cases h
  | succ fuel ih =>
      rw [Nat.succ_add]
      unfold allocLoop at h ⊢
      by_cases hfit : u ≤ s.units x
      · rw [if_pos hfit] at h ⊢
        exact h
      rw [if_neg hfit] at h ⊢
      by_cases hround : x = s.slobfree
      · rw [if_pos hround] at h ⊢
        by_cases hsize : size = pageSize
        · rw [if_pos hsize] at h ⊢
          exact h
        rw [if_neg hsize] at h ⊢
        cases pages with
        | nil => cases h
        | cons page pages =>
            cases page with
            | none => exact h
            | some page =>
                simp only at h ⊢
                cases hfree : slobFree fuel page pageSize s with
                | none =>
                    rw [hfree] at h
                    cases h
                | some s₁ =>
                    rw [hfree] at h
                    rw [slobFree_mono hfree]
                    exact ih h
      · rw [if_neg hround] at h ⊢
        exact ih h

/-- With more fuel a call returns the same. -/
theorem kmalloc_unique {fuel' : Nat} {pages : List (Option Nat)}
    {r r' : Option Nat × State × List (Option Nat)}
    (hsize : size < pageSize - slobUnit)
    (h : kmalloc fuel size pages s = some r)
    (h' : kmalloc fuel' size pages s = some r') : r = r' := by
  have hmono : ∀ {fuel : Nat} {r}, kmalloc fuel size pages s = some r →
      ∀ k, kmalloc (fuel + k) size pages s = some r := by
    intro fuel r h k
    unfold kmalloc at h ⊢
    rw [if_pos hsize] at h ⊢
    unfold slobAlloc at h ⊢
    by_cases hfit : size + slobUnit + slobUnit < pageSize
    · rw [if_pos hfit] at h ⊢
      cases hloop : allocLoop (size + slobUnit) (slobUnits (size + slobUnit))
          fuel pages s.slobfree (s.next s.slobfree) s with
      | none =>
          rw [hloop] at h
          cases h
      | some q =>
          rw [hloop] at h
          rw [allocLoop_mono hloop]
          exact h
    · rw [if_neg hfit] at h
      cases h
  have heq := (hmono h fuel').symm.trans
    ((congrArg (fun k => kmalloc k size pages s) (Nat.add_comm ..)).trans
      (hmono h' fuel))
  exact Option.some.inj heq

theorem slobFree_unique {fuel' : Nat} {s₁ : State}
    (h : slobFree fuel b size s = some s')
    (h' : slobFree fuel' b size s = some s₁) : s' = s₁ := by
  have heq := (slobFree_mono (k := fuel') h).symm.trans
    ((congrArg (fun k => slobFree k b size s) (Nat.add_comm ..)).trans
      (slobFree_mono (k := fuel) h'))
  exact Option.some.inj heq

theorem kfree_unique {fuel' : Nat} {s₁ : State} (hbig : s.bigblocks = [])
    (h : kfree fuel p s = some s') (h' : kfree fuel' p s = some s₁) :
    s' = s₁ := by
  unfold kfree at h h'
  rw [hbig] at h h'
  split at h
  case isTrue hp =>
    rw [if_pos hp] at h'
    exact Option.some.inj (h.symm.trans h')
  case isFalse hp =>
    rw [if_neg hp] at h'
    split at h
    case isTrue hpage =>
      rw [if_pos hpage] at h'
      exact slobFree_unique h h'
    case isFalse hpage =>
      rw [if_neg hpage] at h'
      exact slobFree_unique h h'

-- ======================================================= giving back

/-- A block that overlaps no member has a place between the members. -/
theorem FreeList.place (h : FreeList s l)
    (he : e = ⟨b, s.units b * slobUnit⟩) (hpos : 0 < e.len)
    (hdisj : ∀ q, e.Has q → ¬ Covers l q) :
    ∃ pre suf, l = pre ++ suf ∧ Place s pre suf b e := by
  have hb : e.start = b := by rw [he]
  obtain ⟨pre, suf, rfl, hpre, hsuf⟩ := h.separated.cut b
  refine ⟨pre, suf, rfl, h, he, hpos, fun a ha => ?_, fun a ha => ?_⟩
  · by_contra hover
    have hle := hpre a ha
    refine hdisj b ⟨by omega, ?_⟩ ⟨a, List.mem_append_left _ ha, hle, ?_⟩
    · simp only [stop]
      omega
    · omega
  · by_contra hover
    have hlt := hsuf a ha
    refine hdisj a.start ⟨by omega, by omega⟩
      ⟨a, List.mem_append_right _ ha, le_refl _, ?_⟩
    have := h.separated.pos a (List.mem_append_right _ ha)
    simp only [stop]
    omega

/-- What `slob_free` leaves: one member list more, that covers the block, too. -/
structure Returned (s s' : State) (b : Nat) (e : Extent) (l l' : List Extent) :
    Prop where
  list : FreeList s' l'
  kept : Kept s s' b l
  covers : ∀ q, Covers l' q ↔ Covers l q ∨ e.Has q
  large : ∃ a ∈ l', e.len ≤ a.len
  start : ∀ a ∈ l', a.start = b ∨ ∃ x ∈ l, x.start = a.start

/-- A block that overlaps no member, and does not end at the arena, is put
back. -/
theorem FreeList.putBack (h : FreeList s l) (harena : ⟨arena, slobUnit⟩ ∈ l)
    (he : e = ⟨b, s.units b * slobUnit⟩) (hpos : 0 < e.len)
    (hdisj : ∀ q, e.Has q → ¬ Covers l q) (hstop : e.stop ≠ arena) :
    ∃ l' s', Returned s s' b e l l' ∧ ∃ m, s' = joinBlock b m s
      ∧ findPoint s b (l.length + 1) s.slobfree = some m := by
  obtain ⟨pre, suf, rfl, hplace⟩ := h.place he hpos hdisj
  have hwrap : ∀ c, pre = [] → suf = [c] → e.stop ≠ c.start := by
    intro c hpre hsuf
    rw [hpre, hsuf] at harena
    rw [← List.mem_singleton.1 harena]
    exact hstop
  obtain ⟨m, hfind, hlist, hkept⟩ := hplace.putIn hwrap (Nat.lt_succ_self _)
  refine ⟨_, _, ⟨hlist, hkept, fun q => ?_, ?_, fun a ha => ?_⟩, m, rfl, hfind⟩
  · exact coalesce_covers h.separated.laid hplace.above
  · exact exists_len_le_coalesce pre e suf
  · rcases start_of_mem_coalesce ha with ha | ha
    · exact .inl (ha.trans hplace.start_eq)
    · exact .inr ha

-- ======================================================== the blocks

/-- The block of which `kmalloc` returned `p`: its header lies before. -/
def blockOf (s : State) (p : Nat) : Extent :=
  ⟨p - slobUnit, s.units (p - slobUnit) * slobUnit⟩

/-- The bytes of the blocks in use. -/
def LiveHas (w : World) (q : Nat) : Prop :=
  ∃ p n, w.live p = some n ∧ (blockOf w.state p).Has q

/-- The bytes of the pages. -/
def InPages (pages : List Nat) (q : Nat) : Prop :=
  ∃ page ∈ pages, page ≤ q ∧ q < page + pageSize

/-- What holds between two calls, of the free list `l`. -/
structure Inv (arena : Nat) (w : World) (l : List Extent) : Prop where
  list : FreeList w.state l
  bigblocks : w.state.bigblocks = []
  arena_free : Covers l arena
  cover : ∀ q, Covers l q ∨ LiveHas w q
    ↔ (arena ≤ q ∧ q < arena + slobUnit) ∨ InPages w.pages q
  apart : ∀ q, Covers l q → ¬ LiveHas w q
  live_apart : ∀ p p' n n' q, w.live p = some n → w.live p' = some n' →
    (blockOf w.state p).Has q → (blockOf w.state p').Has q → p = p'
  live_size : ∀ p n, w.live p = some n →
    (slobUnit ≤ p ∧ p % slobUnit = 0) ∧ 1 ≤ n
      ∧ n + slobUnit ≤ (blockOf w.state p).len
  aligned : ∀ e ∈ l, e.start = arena ∨ e.start % slobUnit = 0
  pages : ∀ page ∈ w.pages, (0 < page ∧ page % pageSize = 0)
    ∧ (arena + slobUnit < page ∨ page + pageSize < arena)

/-- Next to the arena there is no page. -/
theorem Inv.arena_alone {l : List Extent} (h : Inv arena w l) {q : Nat}
    (hq : q + 1 = arena ∨ q = arena + slobUnit) : ¬ InPages w.pages q := by
  intro hin
  obtain ⟨page, hpage, hlo, hhi⟩ := hin
  have hgap := (h.pages page hpage).2
  unfold slobUnit at hgap hq
  unfold pageSize at hgap hhi
  omega

theorem Inv.covers_cases {l : List Extent} (h : Inv arena w l) {q : Nat}
    (hq : Covers l q) :
    (arena ≤ q ∧ q < arena + slobUnit) ∨ InPages w.pages q :=
  (h.cover q).1 (.inl hq)

/-- The arena is a free block by itself. -/
theorem Inv.arena_mem {l : List Extent} (h : Inv arena w l) :
    ⟨arena, slobUnit⟩ ∈ l := by
  obtain ⟨a, ha, hlo, hhi⟩ := h.arena_free
  have hlen := h.list.units a ha
  have hstart : a.start = arena := by
    by_contra hne
    have hbefore : Covers l (arena - 1) := ⟨a, ha, by omega, by omega⟩
    rcases h.covers_cases hbefore with hin | hin
    · omega
    · exact h.arena_alone (.inl (by omega)) hin
  have hstop : a.stop ≤ arena + slobUnit := by
    by_contra hlt
    have hafter : Covers l (arena + slobUnit) := ⟨a, ha, by omega, by omega⟩
    rcases h.covers_cases hafter with hin | hin
    · omega
    · exact h.arena_alone (.inr rfl) hin
  have hone : a.len = slobUnit := by
    have hpos := h.list.separated.pos a ha
    simp only [stop] at hstop
    rw [hlen] at hstop hpos ⊢
    unfold slobUnit at hstop hpos ⊢
    omega
  rw [← hstart, ← hone]
  exact ha

/-- The header of a block in use is no member of the list. -/
theorem Inv.header_notMem {l : List Extent} (h : Inv arena w l) {n : Nat}
    (hp : w.live p = some n) : p - slobUnit ∉ starts l := by
  intro hmem
  obtain ⟨a, ha, hstart⟩ := mem_starts.1 hmem
  obtain ⟨-, hn, hsize⟩ := h.live_size p n hp
  refine h.apart a.start (h.list.separated.covers_start ha) ⟨p, n, hp, ?_, ?_⟩
  · exact hstart.symm.le
  · have hlen : 0 < (blockOf w.state p).len := by omega
    rw [hstart]
    exact Nat.lt_add_of_pos_right hlen

theorem Start.inv (h : Start arena w) : Inv arena w [⟨arena, slobUnit⟩] := by
  have hcov : ∀ q, Covers [⟨arena, slobUnit⟩] q
      ↔ arena ≤ q ∧ q < arena + slobUnit := by
    intro q
    simp [covers_cons, covers_nil, Has]
  have hlive : ∀ q, ¬ LiveHas w q := by
    intro q hq
    obtain ⟨p, n, hp, -⟩ := hq
    rw [h.live p] at hp
    cases hp
  refine
    { list := ⟨?_, ?_, ?_, ?_⟩, bigblocks := h.bigblocks, arena_free := ?_,
      cover := ?_, apart := fun q _ => hlive q, live_apart := ?_,
      live_size := ?_, aligned := ?_, pages := ?_ }
  · exact linked_cons_cons.2 ⟨h.next, linked_singleton⟩
  · have hunit : 0 < slobUnit := by decide
    exact separated_cons.2 ⟨hunit, separated_nil, by simp⟩
  · intro e he
    rw [List.mem_singleton.1 he]
    show slobUnit = _
    rw [h.units, Nat.one_mul]
  · rw [h.slobfree]
    exact List.mem_cons_self
  · rw [hcov]
    exact ⟨le_refl _, Nat.lt_add_of_pos_right (by decide)⟩
  · intro q
    have hnone : ¬ InPages w.pages q := by
      rw [h.pages]
      intro hin
      obtain ⟨page, hpage, -⟩ := hin
      cases hpage
    rw [hcov]
    constructor
    · intro hq
      exact .inl (hq.resolve_right (hlive q))
    · intro hq
      exact .inl (hq.resolve_right hnone)
  · intro p p' n n' q hp
    rw [h.live p] at hp
    cases hp
  · intro p n hp
    rw [h.live p] at hp
    cases hp
  · intro e he
    rw [List.mem_singleton.1 he]
    exact .inl rfl
  · rw [h.pages]
    intro page hpage
    cases hpage

/-- A world whose blocks in use have the same headers. -/
theorem blockOf_congr (h : s'.units (p - slobUnit) = s.units (p - slobUnit)) :
    blockOf s' p = blockOf s p := by
  unfold blockOf
  rw [h]

theorem liveHas_congr (hlive : w'.live = w.live)
    (hunits : ∀ p n, w.live p = some n →
      w'.state.units (p - slobUnit) = w.state.units (p - slobUnit)) (q : Nat) :
    LiveHas w' q ↔ LiveHas w q := by
  unfold LiveHas
  rw [hlive]
  refine exists_congr fun p => exists_congr fun n => and_congr_right fun hp => ?_
  rw [blockOf_congr (hunits p n hp)]

/-- What lies between the headers does not matter. -/
theorem Inv.write (h : Inv arena w l) {q n c : Nat} (hq : q ∉ starts l)
    (hlive : ∀ p n, w.live p = some n → p - slobUnit ≠ q) :
    Inv arena { w with state := (w.state.setUnits q n).setNext q c } l := by
  have hunits : ∀ x, x ≠ q →
      ((w.state.setUnits q n).setNext q c).units x = w.state.units x := by
    intro x hx
    simp [State.setUnits, State.setNext, hx]
  have hhas : ∀ x, LiveHas
      { w with state := (w.state.setUnits q n).setNext q c } x
        ↔ LiveHas w x :=
    liveHas_congr rfl fun p m hp => hunits _ (hlive p m hp)
  have hblock : ∀ p m, w.live p = some m →
      blockOf ((w.state.setUnits q n).setNext q c) p = blockOf w.state p :=
    fun p m hp => blockOf_congr (hunits _ (hlive p m hp))
  have hne : ∀ a ∈ l, a.start ≠ q := fun a ha heq =>
    hq (mem_starts.2 ⟨a, ha, heq⟩)
  refine
    { list := ⟨?_, h.list.separated, ?_, h.list.slobfree⟩
      bigblocks := h.bigblocks, arena_free := h.arena_free, cover := ?_
      apart := ?_, live_apart := ?_, live_size := ?_, aligned := h.aligned
      pages := h.pages }
  · refine h.list.circle.congr ?_
    intro x hx
    have hxq : x ≠ q := fun heq => hq (heq ▸ hx)
    simp [State.setUnits, State.setNext, hxq]
  · intro a ha
    rw [h.list.units a ha, hunits a.start (hne a ha)]
  · intro x
    rw [hhas]
    exact h.cover x
  · intro x hx
    rw [hhas]
    exact h.apart x hx
  · intro p p' m m' x hp hp'
    rw [hblock p m hp, hblock p' m' hp']
    exact h.live_apart p p' m m' x hp hp'
  · intro p m hp
    rw [hblock p m hp]
    exact h.live_size p m hp

/-- A block that is no longer in use, or a page that is new, has been put on
the free list. -/
theorem Inv.returned {l' : List Extent} {live : Nat → Option Nat}
    {pages : List Nat} (h : Inv arena w l)
    (hret : Returned w.state s' b e l l') (hbig : w.state.bigblocks = [])
    (hlive : ∀ p n, live p = some n → w.live p = some n ∧ p - slobUnit ≠ b)
    (hcover : ∀ q, (Covers l q ∨ e.Has q) ∨ LiveHas { w with live := live } q
      ↔ (arena ≤ q ∧ q < arena + slobUnit) ∨ InPages pages q)
    (hdisj : ∀ q, e.Has q → ¬ LiveHas { w with live := live } q)
    (hb : b % slobUnit = 0)
    (hpages : ∀ page ∈ pages, (0 < page ∧ page % pageSize = 0)
      ∧ (arena + slobUnit < page ∨ page + pageSize < arena)) :
    Inv arena { state := s', live := live, pages := pages } l' := by
  have hunits : ∀ p n, live p = some n →
      s'.units (p - slobUnit) = w.state.units (p - slobUnit) := by
    intro p n hp
    obtain ⟨hold, hne⟩ := hlive p n hp
    exact hret.kept.units _ hne (h.header_notMem hold)
  have hhas : ∀ q, LiveHas { state := s', live := live, pages := pages } q
      ↔ LiveHas { w with live := live } q :=
    liveHas_congr rfl fun p n hp => hunits p n hp
  have hsub : ∀ q, LiveHas { w with live := live } q → LiveHas w q := by
    intro q hq
    obtain ⟨p, n, hp, hin⟩ := hq
    exact ⟨p, n, (hlive p n hp).1, hin⟩
  have hblock : ∀ p n, live p = some n →
      blockOf s' p = blockOf w.state p := fun p n hp =>
    blockOf_congr (hunits p n hp)
  refine
    { list := hret.list, bigblocks := hret.kept.bigblocks.trans hbig
      arena_free := (hret.covers arena).2 (.inl h.arena_free), cover := ?_
      apart := ?_, live_apart := ?_, live_size := ?_, aligned := ?_
      pages := hpages }
  · intro q
    rw [hret.covers, hhas]
    exact hcover q
  · intro q hq
    rw [hhas]
    rcases (hret.covers q).1 hq with hq | hq
    · exact fun hl => h.apart q hq (hsub q hl)
    · exact hdisj q hq
  · intro p p' n n' q hp hp'
    rw [hblock p n hp, hblock p' n' hp']
    exact h.live_apart p p' n n' q (hlive p n hp).1 (hlive p' n' hp').1
  · intro p n hp
    rw [hblock p n hp]
    exact h.live_size p n (hlive p n hp).1
  · intro a ha
    rcases hret.start a ha with hab | ⟨x, hx, hxa⟩
    · exact .inr (hab ▸ hb)
    · rw [← hxa]
      exact h.aligned x hx

/-- What is put back leaves the blocks in use as they are. -/
theorem Inv.returned_blockOf {l' : List Extent} (h : Inv arena w l)
    (hret : Returned w.state s' b e l l') {n : Nat} (hp : w.live p = some n)
    (hne : p - slobUnit ≠ b) : blockOf s' p = blockOf w.state p :=
  blockOf_congr (hret.kept.units _ hne (h.header_notMem hp))

/-- `slob_free` of a block that may be put back. -/
theorem slobFree_of_putBack {s₁ : State} (hb : b ≠ 0)
    (hs : s₁ = if size = 0 then s else s.setUnits b (slobUnits size))
    (hm : s' = joinBlock b m s₁)
    (hfind : findPoint s₁ b fuel s₁.slobfree = some m) :
    slobFree fuel b size s = some s' := by
  unfold slobFree
  rw [if_neg hb]
  simp only
  rw [← hs, hfind, hm]

theorem State.setNext_self (s : State) (q : Nat) :
    s.setNext q (s.next q) = s := by
  unfold State.setNext
  rw [Function.update_eq_self]

/-- A block in use is in the pages. -/
theorem Inv.live_inPages (h : Inv arena w l) {q : Nat} (hq : LiveHas w q) :
    InPages w.pages q := by
  rcases (h.cover q).1 (.inr hq) with hin | hin
  · have harena : Covers l q := ⟨_, h.arena_mem, hin⟩
    exact absurd hq (h.apart q harena)
  · exact hin

/-- `kfree` of a block in use returns, and the block is free. -/
theorem Inv.kfree (h : Inv arena w l) {n : Nat} (hp : w.live p = some n) :
    ∃ fuel s' l', Slob.kfree fuel p w.state = some s'
      ∧ Inv arena
        { w with state := s', live := Function.update w.live p none } l'
      ∧ ∀ p' n', w.live p' = some n' → p' ≠ p →
        blockOf s' p' = blockOf w.state p' := by
  obtain ⟨⟨hlo, haligned⟩, hn, hsize⟩ := h.live_size p n hp
  have hpos : 0 < (blockOf w.state p).len := by omega
  have hhas : ∀ q, (blockOf w.state p).Has q → LiveHas w q := fun q hq =>
    ⟨p, n, hp, hq⟩
  have hdisj : ∀ q, (blockOf w.state p).Has q → ¬ Covers l q :=
    fun q hq hcov => h.apart q hcov (hhas q hq)
  have hstop : (blockOf w.state p).stop ≠ arena := by
    intro heq
    have hlast : (blockOf w.state p).Has (arena - 1) := by
      simp only [Has, stop] at heq ⊢
      omega
    refine h.arena_alone (.inl ?_) (h.live_inPages (hhas _ hlast))
    simp only [stop] at heq
    omega
  have hb : p - slobUnit ≠ 0 := by
    have hfirst : (blockOf w.state p).Has (p - slobUnit) :=
      ⟨le_refl _, Nat.lt_add_of_pos_right hpos⟩
    obtain ⟨page, hpage, hle, -⟩ := h.live_inPages (hhas _ hfirst)
    have := (h.pages page hpage).1.1
    omega
  obtain ⟨l', s', hret, m, hm, hfind⟩ :=
    h.list.putBack h.arena_mem rfl hpos hdisj hstop
  have hother : ∀ p' n', Function.update w.live p none p' = some n' →
      w.live p' = some n' ∧ p' ≠ p := by
    intro p' n' hp'
    by_cases hpp : p' = p
    · rw [hpp, Function.update_self] at hp'
      cases hp'
    · rw [Function.update_of_ne hpp] at hp'
      exact ⟨hp', hpp⟩
  have hsplit : ∀ q, LiveHas w q ↔ (blockOf w.state p).Has q
      ∨ LiveHas { w with live := Function.update w.live p none } q := by
    intro q
    constructor
    · intro hq
      obtain ⟨p', n', hp', hin⟩ := hq
      by_cases hpp : p' = p
      · exact .inl (hpp ▸ hin)
      · refine .inr ⟨p', n', ?_, hin⟩
        show Function.update w.live p none p' = _
        rw [Function.update_of_ne hpp]
        exact hp'
    · intro hq
      rcases hq with hq | ⟨p', n', hp', hin⟩
      · exact hhas q hq
      · exact ⟨p', n', (hother p' n' hp').1, hin⟩
  have hcall : slobFree (l.length + 1) (p - slobUnit) 0 w.state = some s' :=
    slobFree_of_putBack hb (by rw [if_pos rfl]) hm hfind
  have hheader : ∀ p' n', w.live p' = some n' → p' ≠ p →
      p' - slobUnit ≠ p - slobUnit := by
    intro p' n' hp' hne
    have hlo' := (h.live_size p' n' hp').1.1
    omega
  refine ⟨l.length + 1, s', l', ?_, h.returned hret h.bigblocks ?_ ?_ ?_ ?_
    h.pages, fun p' n' hp' hne =>
      h.returned_blockOf hret hp' (hheader p' n' hp' hne)⟩
  · unfold Slob.kfree
    rw [if_neg (by omega), h.bigblocks]
    split
    case isTrue _ => exact hcall
    case isFalse _ => exact hcall
  · intro p' n' hp'
    obtain ⟨hold, hne⟩ := hother p' n' hp'
    exact ⟨hold, hheader p' n' hold hne⟩
  · intro q
    rw [← h.cover q, hsplit q, or_assoc]
    exact Iff.rfl
  · intro q hq hlive
    obtain ⟨p', n', hp', hin⟩ := hlive
    obtain ⟨hold, hne⟩ := hother p' n' hp'
    exact hne (h.live_apart p' p n' n q hold hp hin hq)
  · unfold slobUnit at haligned hlo ⊢
    omega

/-- A page that is new is put on the free list as one block. -/
theorem Inv.grow (h : Inv arena w l) (hpage : Fresh arena w page) :
    ∃ fuel s' l', slobFree fuel page pageSize w.state = some s'
      ∧ Inv arena { w with state := s', pages := page :: w.pages } l'
      ∧ (∃ a ∈ l', pageSize ≤ a.len)
      ∧ ∀ p n, w.live p = some n → blockOf s' p = blockOf w.state p := by
  have hnew : ∀ q, page ≤ q → q < page + pageSize →
      ¬ Covers l q ∧ ¬ LiveHas w q := by
    intro q hlo hhi
    have hout : ¬ ((arena ≤ q ∧ q < arena + slobUnit) ∨ InPages w.pages q) := by
      intro hin
      rcases hin with hin | ⟨page', hmem, hlo', hhi'⟩
      · have := hpage.apart
        omega
      · have hal := hpage.aligned
        have hal' := (h.pages page' hmem).1.2
        unfold pageSize at hal hal' hhi hhi'
        have heq : page' = page := by omega
        exact hpage.unused (heq ▸ hmem)
    rw [← h.cover q] at hout
    exact ⟨fun hcov => hout (.inl hcov), fun hlive => hout (.inr hlive)⟩
  have hsize : 0 < pageSize := by decide
  have hfirst := hnew page (le_refl _) (Nat.lt_add_of_pos_right hsize)
  have hnot : page ∉ starts l := by
    intro hmem
    obtain ⟨a, ha, hstart⟩ := mem_starts.1 hmem
    exact hfirst.1 (hstart ▸ h.list.separated.covers_start ha)
  have hheader : ∀ p n, w.live p = some n → p - slobUnit ≠ page := by
    intro p n hp heq
    obtain ⟨-, hn, hlen⟩ := h.live_size p n hp
    refine hfirst.2 ⟨p, n, hp, heq.le, ?_⟩
    rw [← heq]
    exact Nat.lt_add_of_pos_right (by omega : 0 < (blockOf w.state p).len)
  have hset := h.write (n := slobUnits pageSize)
    (c := (w.state.setUnits page (slobUnits pageSize)).next page) hnot hheader
  rw [State.setNext_self] at hset
  have hunits : (w.state.setUnits page (slobUnits pageSize)).units page
      * slobUnit = pageSize := by
    simp only [State.setUnits, Function.update_self]
    decide
  have hhas : ∀ q, (Extent.mk page
      ((w.state.setUnits page (slobUnits pageSize)).units page
        * slobUnit)).Has q ↔ page ≤ q ∧ q < page + pageSize := by
    intro q
    rw [hunits]
    rfl
  have hsame : ∀ q, LiveHas
      { w with state := w.state.setUnits page (slobUnits pageSize) } q
        ↔ LiveHas w q := by
    refine liveHas_congr rfl fun p n hp => ?_
    have hne := hheader p n hp
    simp [State.setUnits, hne]
  have hlen : 0 < (w.state.setUnits page (slobUnits pageSize)).units page
      * slobUnit := by
    rw [hunits]
    exact hsize
  obtain ⟨l', s', hret, m, hm, hfind⟩ := hset.list.putBack hset.arena_mem rfl
    hlen (fun q hq => (hnew q ((hhas q).1 hq).1 ((hhas q).1 hq).2).1)
    (by
      have := hpage.apart
      simp only [stop]
      rw [hunits]
      omega)
  refine ⟨l.length + 1, s', l', ?_, ?_, ?_, fun p n hp => ?_⟩
  · exact slobFree_of_putBack (Nat.pos_iff_ne_zero.1 hpage.pos)
      (by rw [if_neg (by decide)]) hm hfind
  · refine hset.returned hret h.bigblocks (fun p n hp => ⟨hp, hheader p n hp⟩)
      ?_ ?_ ?_ ?_
    · intro q
      have hin : InPages (page :: w.pages) q
          ↔ (page ≤ q ∧ q < page + pageSize) ∨ InPages w.pages q := by
        simp [InPages]
      rw [hhas, or_right_comm, hin]
      exact (or_congr_left (hset.cover q)).trans
        (or_assoc.trans (or_congr_right or_comm))
    · intro q hq hlive
      have hin := (hhas q).1 hq
      exact (hnew q hin.1 hin.2).2 ((hsame q).1 hlive)
    · have := hpage.aligned
      unfold pageSize at this
      unfold slobUnit
      omega
    · intro page' hmem
      rcases List.mem_cons.1 hmem with rfl | hmem
      · exact ⟨⟨hpage.pos, hpage.aligned⟩, hpage.apart⟩
      · exact h.pages page' hmem
  · obtain ⟨a, ha, hlen⟩ := hret.large
    rw [hunits] at hlen
    exact ⟨a, ha, hlen⟩
  · rw [hset.returned_blockOf hret hp (hheader p n hp)]
    have hne := hheader p n hp
    simp [blockOf, State.setUnits, hne]

-- ======================================================== taking out

/-- Taking a block off a member that is large enough. -/
theorem Inv.take (h : Inv arena w (pre ++ e :: suf)) {q n : Nat}
    (hp : Before pre e suf q) (hle : u ≤ w.state.units e.start) (hn : 1 ≤ n)
    (hsize : n + slobUnit ≤ u * slobUnit) :
    Inv arena
      { w with
        state := takeBlock u q e.start w.state
        live := Function.update w.live (e.start + slobUnit) (some n) }
      (pre ++ rest e (u * slobUnit) ++ suf)
      ∧ (w.live (e.start + slobUnit) = none
        ∧ blockOf (takeBlock u q e.start w.state) (e.start + slobUnit)
          = ⟨e.start, u * slobUnit⟩)
      ∧ ∀ p m, w.live p = some m →
        blockOf (takeBlock u q e.start w.state) p = blockOf w.state p := by
  have hunit : slobUnit = 16 := rfl
  have he : e ∈ pre ++ e :: suf := by simp
  have helen := h.list.units e he
  have hu : 1 < u := by
    by_contra hlt
    have := Nat.mul_le_mul_right slobUnit (by omega : u ≤ 1)
    omega
  have hfit : u * slobUnit ≤ e.len := by
    rw [helen]
    exact Nat.mul_le_mul_right slobUnit hle
  -- the arena is another member
  have hea : e ≠ ⟨arena, slobUnit⟩ := by
    intro heq
    rw [heq] at helen hfit
    simp only at hfit
    have := Nat.mul_le_mul_right slobUnit (by omega : 2 ≤ u)
    omega
  have harena : ⟨arena, slobUnit⟩ ∈ pre ++ suf := by
    rcases List.mem_cons.1 (List.perm_middle.subset h.arena_mem) with heq | hin
    · exact absurd heq.symm hea
    · exact hin
  have hout := start_outside h.list.separated harena
  have hstart : e.start ≠ arena ∧ e.start % slobUnit = 0 := by
    have hne : e.start ≠ arena := by
      simp only [stop] at hout
      omega
    exact ⟨hne, (h.aligned e he).resolve_left hne⟩
  obtain ⟨hlist, hunits⟩ := h.list.take (List.ne_nil_of_mem harena) hp
    (by omega) hle
  obtain ⟨hbig, -, hkept⟩ := takeBlock_frame u q e.start w.state
  have hcov : ∀ x, Covers (pre ++ rest e (u * slobUnit) ++ suf) x
      ↔ Covers (pre ++ e :: suf) x
        ∧ ¬ (e.start ≤ x ∧ x < e.start + u * slobUnit) := fun x =>
    carve_covers h.list.separated.laid hfit
  have hin : ∀ x, e.start ≤ x → x < e.start + u * slobUnit →
      Covers (pre ++ e :: suf) x := by
    intro x hlo hhi
    refine ⟨e, he, hlo, ?_⟩
    simp only [stop]
    omega
  -- the block taken, and the blocks in use before
  have hnew : w.live (e.start + slobUnit) = none := by
    cases hlive : w.live (e.start + slobUnit) with
    | none => rfl
    | some m =>
        refine absurd (mem_starts.2 ⟨e, he, ?_⟩) (h.header_notMem hlive)
        omega
  have hblock : blockOf (takeBlock u q e.start w.state) (e.start + slobUnit)
      = ⟨e.start, u * slobUnit⟩ := by
    unfold blockOf
    rw [Nat.add_sub_cancel, hunits]
  have hold : ∀ p m, w.live p = some m →
      blockOf (takeBlock u q e.start w.state) p = blockOf w.state p := by
    intro p m hp
    have hhead := h.header_notMem hp
    refine blockOf_congr (hkept _ ?_ ?_)
    · intro heq
      exact hhead (mem_starts.2 ⟨e, he, heq.symm⟩)
    · intro hne heq
      obtain ⟨-, hm, hlen⟩ := h.live_size p m hp
      have hlt := Nat.mul_lt_mul_of_pos_right
        (Nat.lt_of_le_of_ne hle hne) (by decide : 0 < slobUnit)
      refine h.apart (p - slobUnit) ⟨e, he, by omega, ?_⟩
        ⟨p, m, hp, le_refl _, ?_⟩
      · simp only [stop]
        omega
      · exact Nat.lt_add_of_pos_right (by omega : 0 < (blockOf w.state p).len)
  have hcases : ∀ p m, Function.update w.live (e.start + slobUnit) (some n) p
      = some m → (p = e.start + slobUnit ∧ m = n) ∨ w.live p = some m := by
    intro p m hp
    by_cases hpe : p = e.start + slobUnit
    · rw [hpe, Function.update_self] at hp
      cases hp
      exact .inl ⟨hpe, rfl⟩
    · rw [Function.update_of_ne hpe] at hp
      exact .inr hp
  have hlive : ∀ x, LiveHas
      { w with
        state := takeBlock u q e.start w.state
        live := Function.update w.live (e.start + slobUnit) (some n) } x
      ↔ LiveHas w x ∨ (e.start ≤ x ∧ x < e.start + u * slobUnit) := by
    intro x
    constructor
    · intro hx
      obtain ⟨p, m, hp, hhas⟩ := hx
      rcases hcases p m hp with ⟨rfl, rfl⟩ | hp
      · have hhas' := hhas
        rw [hblock] at hhas'
        exact .inr hhas'
      · have hhas' := hhas
        rw [hold p m hp] at hhas'
        exact .inl ⟨p, m, hp, hhas'⟩
    · intro hx
      rcases hx with ⟨p, m, hp, hhas⟩ | hx
      · refine ⟨p, m, ?_, ?_⟩
        · have hpe : p ≠ e.start + slobUnit := by
            intro heq
            rw [heq, hnew] at hp
            cases hp
          show Function.update w.live _ _ p = some m
          rw [Function.update_of_ne hpe]
          exact hp
        · show (blockOf (takeBlock u q e.start w.state) p).Has x
          rw [hold p m hp]
          exact hhas
      · refine ⟨e.start + slobUnit, n, ?_, ?_⟩
        · show Function.update w.live _ _ _ = some n
          rw [Function.update_self]
        · show (blockOf (takeBlock u q e.start w.state) _).Has x
          rw [hblock]
          exact hx
  -- a block that was in use does not meet the one taken
  have hmeet : ∀ p m x, w.live p = some m → (blockOf w.state p).Has x →
      ¬ (e.start ≤ x ∧ x < e.start + u * slobUnit) := by
    intro p m x hp hhas hx
    exact h.apart x (hin x hx.1 hx.2) ⟨p, m, hp, hhas⟩
  refine ⟨
    { list := hlist, bigblocks := hbig.trans h.bigblocks, arena_free := ?_
      cover := ?_, apart := ?_, live_apart := ?_, live_size := ?_
      aligned := ?_, pages := h.pages }, ⟨hnew, hblock⟩, hold⟩
  · rw [hcov]
    refine ⟨h.arena_free, ?_⟩
    simp only [stop] at hout
    omega
  · intro x
    rw [hcov, hlive, ← h.cover x]
    constructor
    · intro hx
      rcases hx with hx | hx | hx
      · exact .inl hx.1
      · exact .inr hx
      · exact .inl (hin x hx.1 hx.2)
    · intro hx
      by_cases hxu : e.start ≤ x ∧ x < e.start + u * slobUnit
      · exact .inr (.inr hxu)
      · rcases hx with hx | hx
        · exact .inl ⟨hx, hxu⟩
        · exact .inr (.inl hx)
  · intro x hx hl
    obtain ⟨hx, hxu⟩ := (hcov x).1 hx
    rcases (hlive x).1 hl with hl | hl
    · exact h.apart x hx hl
    · exact hxu hl
  · intro p p' m m' x hp hp' hx hx'
    rcases hcases p m hp with ⟨hpe, -⟩ | hlp
    · rcases hcases p' m' hp' with ⟨hpe', -⟩ | hlp'
      · rw [hpe, hpe']
      · have hx₁ := hx
        have hx₂ := hx'
        rw [hpe, hblock] at hx₁
        rw [hold p' m' hlp'] at hx₂
        exact absurd hx₁ (hmeet p' m' x hlp' hx₂)
    · have hx₁ := hx
      have hx₂ := hx'
      rw [hold p m hlp] at hx₁
      rcases hcases p' m' hp' with ⟨hpe', -⟩ | hlp'
      · rw [hpe', hblock] at hx₂
        exact absurd hx₂ (hmeet p m x hlp hx₁)
      · rw [hold p' m' hlp'] at hx₂
        exact h.live_apart p p' m m' x hlp hlp' hx₁ hx₂
  · intro p m hp
    rcases hcases p m hp with ⟨rfl, rfl⟩ | hp
    · refine ⟨⟨Nat.le_add_left _ _, ?_⟩, hn, ?_⟩
      · rw [Nat.add_mod_right]
        exact hstart.2
      · show m + slobUnit ≤ (blockOf (takeBlock u q e.start w.state) _).len
        rw [hblock]
        exact hsize
    · show _ ∧ _ ∧ m + slobUnit
        ≤ (blockOf (takeBlock u q e.start w.state) p).len
      rw [hold p m hp]
      exact h.live_size p m hp
  · intro a ha
    have hmem : ∀ a ∈ pre ++ suf, a ∈ pre ++ e :: suf := fun a ha =>
      List.perm_middle.symm.subset (List.mem_cons_of_mem e ha)
    rcases List.mem_append.1 ha with ha | ha
    · rcases List.mem_append.1 ha with ha | ha
      · exact h.aligned a (hmem a (List.mem_append_left _ ha))
      · unfold rest at ha
        split at ha
        case isTrue _ =>
          rw [List.mem_singleton.1 ha]
          right
          rw [Nat.add_mul_mod_self_right]
          exact hstart.2
        case isFalse _ => cases ha
    · exact h.aligned a (hmem a (List.mem_append_right _ ha))

/-- Once some member is large enough, `slob_alloc` takes a block. -/
theorem Inv.slobAlloc (h : Inv arena w l) (size : Nat) {n : Nat}
    (hfit : ∃ e ∈ l, u ≤ w.state.units e.start) (hn : 1 ≤ n)
    (hsize : n + slobUnit ≤ u * slobUnit) (pages : List (Option Nat)) :
    ∃ m s' l', (∀ fuel, l.length < fuel →
        allocLoop size u fuel pages w.state.slobfree
          (w.state.next w.state.slobfree) w.state = some (some m, s', pages))
      ∧ Inv arena
        { w with
          state := s'
          live := Function.update w.live (m + slobUnit) (some n) } l'
      ∧ (w.live (m + slobUnit) = none
        ∧ blockOf s' (m + slobUnit) = ⟨m, u * slobUnit⟩)
      ∧ ∀ p m, w.live p = some m → blockOf s' p = blockOf w.state p := by
  obtain ⟨pre, e, suf, p, rfl, hp, hle, hloop⟩ :=
    h.list.firstFit size hfit pages
  exact ⟨_, _, _, hloop, h.take hp hle hn hsize⟩

/-- The loop of `slob_alloc`, once it has come to `slobfree` without a fit. -/
theorem FreeList.allocLoop_asks (h : FreeList s l) (hsize : size ≠ pageSize)
    (hsmall : ∀ e ∈ l, s.units e.start < u) (fuel p : Nat)
    (pages : List (Option Nat)) :
    allocLoop size u (fuel + 1) pages p s.slobfree s
      = match pages with
        | [] => none
        | none :: pages => some (none, s, pages)
        | some page :: pages =>
            match slobFree fuel page pageSize s with
            | none => none
            | some s =>
                allocLoop size u fuel pages s.slobfree (s.next s.slobfree) s := by
  obtain ⟨f, hf, hstart⟩ := mem_starts.1 h.slobfree
  have hless := hsmall f hf
  rw [hstart] at hless
  conv_lhs => unfold allocLoop
  rw [if_neg (by omega)]
  exact (if_pos rfl).trans (if_neg hsize)

/-- Where no member is large enough and no page is to be had, `slob_alloc`
returns nothing and leaves the heap alone. -/
theorem FreeList.slobAlloc_none (h : FreeList s l)
    (hsize : size + slobUnit < pageSize)
    (hsmall : ∀ e ∈ l, s.units e.start < slobUnits size)
    (pages : List (Option Nat)) :
    Slob.slobAlloc (l.length + 1) size (none :: pages) s
      = some (none, s, pages) := by
  obtain ⟨p, hround⟩ := h.noFit size 1 hsmall (none :: pages)
  rw [Nat.add_comm 1] at hround
  unfold Slob.slobAlloc
  rw [if_pos hsize, hround,
    h.allocLoop_asks (by unfold slobUnit at hsize; omega) hsmall]

/-- It has no result as long as nobody answers it. -/
theorem FreeList.slobAlloc_asks (h : FreeList s l)
    (hsmall : ∀ e ∈ l, s.units e.start < slobUnits size) (fuel : Nat) :
    Slob.slobAlloc fuel size [] s = none := by
  unfold Slob.slobAlloc
  split
  case isFalse _ => rfl
  case isTrue hsize =>
    by_contra hsome
    obtain ⟨r, hr⟩ := Option.ne_none_iff_exists'.1 hsome
    have hmore := allocLoop_mono (k := l.length) hr
    obtain ⟨p, hround⟩ := h.noFit size fuel hsmall []
    rw [hround, h.allocLoop_asks (by unfold slobUnit at hsize; omega)
      hsmall] at hmore
    cases hmore

/-- `slob_alloc` puts a page on the list when no member is large enough, and
takes the block from it. -/
theorem Inv.slobAlloc_grow (h : Inv arena w l) {n : Nat}
    (hsize : size + slobUnit < pageSize)
    (hsmall : ∀ e ∈ l, w.state.units e.start < slobUnits size) (hn : 1 ≤ n)
    (hroom : n + slobUnit ≤ slobUnits size * slobUnit)
    (hpage : Fresh arena w page) (pages : List (Option Nat)) :
    ∃ fuel m s' l', Slob.slobAlloc fuel size (some page :: pages) w.state
        = some (some m, s', pages)
      ∧ Inv arena
        { state := s', live := Function.update w.live (m + slobUnit) (some n)
          pages := page :: w.pages } l'
      ∧ (w.live (m + slobUnit) = none
        ∧ blockOf s' (m + slobUnit) = ⟨m, slobUnits size * slobUnit⟩)
      ∧ ∀ p n', w.live p = some n' → blockOf s' p = blockOf w.state p := by
  have hunit : slobUnit = 16 := rfl
  have hpsize : pageSize = 4096 := rfl
  obtain ⟨k, s₁, l₁, hfree, hinv₁, ⟨a, ha, hlarge⟩, hkept₁⟩ := h.grow hpage
  have hfit₁ : ∃ e ∈ l₁, slobUnits size ≤ s₁.units e.start := by
    refine ⟨a, ha, ?_⟩
    have hlen := hinv₁.list.units a ha
    have hle : slobUnits size * slobUnit ≤ pageSize := by
      unfold slobUnits
      rw [hunit] at hsize ⊢
      omega
    have hmul : slobUnits size * slobUnit ≤ s₁.units a.start * slobUnit := by
      rw [← hlen]
      exact hle.trans hlarge
    exact Nat.le_of_mul_le_mul_right hmul (by decide)
  obtain ⟨m, s', l', hloop, hinv, hnew, hkept⟩ :=
    hinv₁.slobAlloc size hfit₁ hn hroom pages
  obtain ⟨p, hround⟩ := h.list.noFit size (k + (l₁.length + 1)) hsmall
    (some page :: pages)
  refine ⟨k + (l₁.length + 1) + l.length, m, s', l', ?_, hinv, hnew,
    fun q n' hq => ?_⟩
  · unfold Slob.slobAlloc
    rw [if_pos hsize, hround, h.list.allocLoop_asks (by omega) hsmall]
    simp only
    rw [slobFree_mono hfree]
    exact hloop _ (by omega)
  · rw [hkept q n' hq, hkept₁ q n' hq]

/-- `kmalloc` with a page at hand returns a block. -/
theorem Inv.kmalloc (h : Inv arena w l) {n : Nat} (hn : 1 ≤ n)
    (hsize : n < pageSize - 2 * slobUnit) (hpage : Fresh arena w page) :
    ∃ fuel p s' rest l', Slob.kmalloc fuel n [some page] w.state
        = some (some p, s', rest)
      ∧ Inv arena
        { state := s', live := Function.update w.live p (some n)
          pages := grown w.pages page rest } l' := by
  have hunit : slobUnit = 16 := rfl
  have hpsize : pageSize = 4096 := rfl
  have hroom : n + slobUnit ≤ slobUnits (n + slobUnit) * slobUnit := by
    unfold slobUnits
    rw [hunit]
    omega
  have hfits : n + slobUnit + slobUnit < pageSize := by omega
  have hcall : ∀ fuel m s' rest,
      Slob.slobAlloc fuel (n + slobUnit) [some page] w.state
          = some (some m, s', rest) →
      Slob.kmalloc fuel n [some page] w.state
        = some (some (m + slobUnit), s', rest) := by
    intro fuel m s' rest hslob
    unfold Slob.kmalloc
    rw [if_pos (by omega), hslob]
  by_cases hfit : ∃ e ∈ l, slobUnits (n + slobUnit) ≤ w.state.units e.start
  · obtain ⟨m, s', l', hloop, hinv, -, -⟩ :=
      h.slobAlloc (n + slobUnit) hfit hn hroom [some page]
    refine ⟨l.length + 1, m + slobUnit, s', [some page], l',
      hcall _ _ _ _ ?_, hinv⟩
    unfold Slob.slobAlloc
    rw [if_pos hfits]
    exact hloop _ (Nat.lt_succ_self _)
  · -- no member is large enough: the loop gets a page, and goes round again
    have hlt : ∀ e ∈ l, w.state.units e.start < slobUnits (n + slobUnit) := by
      intro e he
      by_contra hle
      exact hfit ⟨e, he, by omega⟩
    obtain ⟨fuel, m, s', l', hslob, hinv, -, -⟩ :=
      h.slobAlloc_grow hfits hlt hn hroom hpage []
    exact ⟨fuel, m + slobUnit, s', [], l', hcall _ _ _ _ hslob, hinv⟩

-- ========================================================== the runs

theorem Step.inv {lb : Label} (hstep : Step arena w lb w')
    (h : ∃ l, Inv arena w l) : ∃ l, Inv arena w' l := by
  obtain ⟨l, h⟩ := h
  cases hstep with
  | kmalloc hpos hsize hpage hcall =>
      obtain ⟨fuel, p, s', rest, l', hcall', hinv⟩ :=
        h.kmalloc hpos hsize hpage
      have hlt := hsize
      unfold pageSize slobUnit at hlt
      have heq := kmalloc_unique
        (by unfold pageSize slobUnit; omega) hcall hcall'
      cases heq
      exact ⟨l', hinv⟩
  | kfree hlive hcall =>
      obtain ⟨fuel, s', l', hcall', hinv, -⟩ := h.kfree hlive
      have heq := kfree_unique h.bigblocks hcall hcall'
      subst heq
      exact ⟨l', hinv⟩
  | @write block size addr n c hlive hlo hhi =>
      obtain ⟨⟨hblock, -⟩, -, -⟩ := h.live_size block size hlive
      have hunit : slobUnit = 16 := rfl
      have hin : (blockOf w.state block).Has addr := by
        simp only [blockOf, Has, stop]
        omega
      refine ⟨l, h.write ?_ ?_⟩
      · intro hmem
        obtain ⟨a, ha, hstart⟩ := mem_starts.1 hmem
        exact h.apart addr (hstart ▸ h.list.separated.covers_start ha)
          ⟨block, size, hlive, hin⟩
      · intro p m hp heq
        obtain ⟨⟨hp16, -⟩, -, hlen⟩ := h.live_size p m hp
        have hhead : (blockOf w.state p).Has addr := by
          refine ⟨heq.le, ?_⟩
          rw [← heq]
          exact Nat.lt_add_of_pos_right
            (by omega : 0 < (blockOf w.state p).len)
        have hpb := h.live_apart p block m size addr hp hlive hhead hin
        omega

-- ========================================================= soundness

/-- A free block or one in use. -/
def IsBlock (w : World) (l : List Extent) (b : Extent) : Prop :=
  b ∈ l ∨ ∃ p n, w.live p = some n ∧ b = blockOf w.state p

/-- The unit at `x` lies in one block, and meets no other. -/
def InOneBlock (w : World) (l : List Extent) (x : Nat) : Prop :=
  ∃ b, IsBlock w l b ∧ (∀ q, x ≤ q → q < x + slobUnit → b.Has q)
    ∧ ∀ b', IsBlock w l b' → (∃ q, x ≤ q ∧ q < x + slobUnit ∧ b'.Has q) →
      b' = b

/-- The heap, with the free list `l`, is in order. -/
structure Sound (w : World) (l : List Extent) : Prop where
  list : FreeList w.state l
  live_free : ∀ p n, w.live p = some n → ∀ e ∈ l, ∀ q,
    (blockOf w.state p).Has q → ¬ e.Has q
  live_live : ∀ p n p' n', w.live p = some n → w.live p' = some n' → p ≠ p' →
    ∀ q, (blockOf w.state p).Has q → ¬ (blockOf w.state p').Has q
  size : ∀ p n, w.live p = some n → p + n ≤ (blockOf w.state p).stop
  units : ∀ page ∈ w.pages, ∀ i, i < pageSize / slobUnit →
    InOneBlock w l (page + i * slobUnit)

/-- Blocks are made of whole units, the arena apart. -/
theorem Inv.block_aligned (h : Inv arena w l) {e : Extent} (he : IsBlock w l e) :
    (e.start = arena ∨ e.start % slobUnit = 0) ∧ ∃ k, e.len = k * slobUnit := by
  rcases he with he | ⟨p, n, hp, rfl⟩
  · exact ⟨h.aligned e he, _, h.list.units e he⟩
  · obtain ⟨⟨hlo, hmod⟩, -, -⟩ := h.live_size p n hp
    refine ⟨.inr ?_, _, rfl⟩
    show (p - slobUnit) % slobUnit = 0
    unfold slobUnit at hlo hmod ⊢
    omega

/-- A byte is in one block only. -/
theorem Inv.block_unique (h : Inv arena w l) {b b' : Extent} {q : Nat}
    (hb : IsBlock w l b) (hb' : IsBlock w l b') (hq : b.Has q)
    (hq' : b'.Has q) : b' = b := by
  rcases hb with hb | ⟨p, n, hp, rfl⟩
  · rcases hb' with hb' | ⟨p', n', hp', rfl⟩
    · exact h.list.separated.has_unique hb' hb hq' hq
    · exact absurd ⟨p', n', hp', hq'⟩ (h.apart q ⟨b, hb, hq⟩)
  · rcases hb' with hb' | ⟨p', n', hp', rfl⟩
    · exact absurd ⟨p, n, hp, hq⟩ (h.apart q ⟨b', hb', hq'⟩)
    · rw [h.live_apart p p' n n' q hp hp' hq hq']

theorem Inv.sound (h : Inv arena w l) : Sound w l := by
  refine ⟨h.list, ?_, ?_, ?_, ?_⟩
  · intro p n hp e he q hq heq
    exact h.apart q ⟨e, he, heq⟩ ⟨p, n, hp, hq⟩
  · intro p n p' n' hp hp' hne q hq hq'
    exact hne (h.live_apart p p' n n' q hp hp' hq hq')
  · intro p n hp
    obtain ⟨⟨hlo, -⟩, -, hlen⟩ := h.live_size p n hp
    have hstop : (blockOf w.state p).stop
        = p - slobUnit + (blockOf w.state p).len := rfl
    omega
  · intro page hpage i hi
    obtain ⟨⟨-, hmod⟩, hgap⟩ := h.pages page hpage
    unfold pageSize slobUnit at hi
    unfold pageSize at hmod hgap
    have hunit : slobUnit = 16 := rfl
    rw [hunit] at hgap ⊢
    have hin : InPages w.pages (page + i * 16) := by
      refine ⟨page, hpage, Nat.le_add_right _ _, ?_⟩
      unfold pageSize
      omega
    obtain ⟨b, hb, hlo, hhi⟩ : ∃ b, IsBlock w l b ∧ b.Has (page + i * 16) := by
      rcases (h.cover _).2 (.inr hin) with ⟨b, hb, hhas⟩ | ⟨p, n, hp, hhas⟩
      · exact ⟨b, .inl hb, hhas⟩
      · exact ⟨_, .inr ⟨p, n, hp, rfl⟩, hhas⟩
    obtain ⟨halign, k, hk⟩ := h.block_aligned hb
    rw [hunit] at hk halign
    simp only [stop] at hhi
    have hstart : b.start % 16 = 0 := by
      refine halign.resolve_left fun harena => ?_
      -- the arena is a block by itself
      have heq := h.block_unique hb (.inl h.arena_mem) ⟨harena.le, by
        simp only [stop]
        omega⟩ ⟨le_refl _, Nat.lt_add_of_pos_right (by decide : 0 < slobUnit)⟩
      rw [← heq] at hhi hlo
      simp only [hunit] at hhi hlo
      omega
    have hbyte : ∀ q, page + i * 16 ≤ q → q < page + i * 16 + slobUnit →
        b.Has q := by
      intro q hq hq'
      simp only [Has, stop]
      omega
    refine ⟨b, hb, hbyte, fun b' hb' hq => ?_⟩
    obtain ⟨q, hq, hq', hhas⟩ := hq
    exact h.block_unique hb hb' (hbyte q hq hq') hhas

/-- In every state that the calls reach the heap is in order, and the next call
returns: `kmalloc` a block, given a page should it ask for one, and `kfree` of
a block in use. -/
theorem slob_heap_sound {w₀ : World} {ls : List Label}
    (hstart : Start arena w₀) (hrun : Run (Step arena) w₀ ls w) :
    (∃ l, Sound w l)
      ∧ (∀ n page, 1 ≤ n → n < pageSize - 2 * slobUnit → Fresh arena w page →
        ∃ fuel p s rest,
          kmalloc fuel n [some page] w.state = some (some p, s, rest))
      ∧ ∀ p n, w.live p = some n → ∃ fuel s, kfree fuel p w.state = some s := by
  obtain ⟨l, h⟩ := hrun.invariant (I := fun w => ∃ l, Inv arena w l)
    (fun h hs => Step.inv hs h) ⟨_, hstart.inv⟩
  refine ⟨⟨l, h.sound⟩, ?_, ?_⟩
  · intro n page hn hsize hpage
    obtain ⟨fuel, p, s, rest, -, hcall, -⟩ := h.kmalloc hn hsize hpage
    exact ⟨fuel, p, s, rest, hcall⟩
  · intro p n hp
    obtain ⟨fuel, s, -, hcall, -⟩ := h.kfree hp
    exact ⟨fuel, s, hcall⟩

/-- A heap with the arena at 8. -/
def arenaWorld : World where
  state := { units _ := 1, next _ := 8, slobfree := 8, bigblocks := [] }
  live _ := none
  pages := []

theorem arenaWorld_start : Start 8 arenaWorld :=
  ⟨rfl, rfl, rfl, rfl, fun _ => rfl, rfl⟩

/-- One block taken and given back. -/
theorem slob_heap_sound_once : ∃ w, Run (Step 8) arenaWorld
    [.kmalloc 100 (some 4112), .kfree 4112] w ∧ ∃ l, Sound w l := by
  have hfresh : Fresh 8 arenaWorld 4096 :=
    ⟨by decide, by decide, by simp [arenaWorld], by decide⟩
  have hcall : (kmalloc 3 100 [some 4096] arenaWorld.state).map (·.1)
      = some (some 4112) := by decide +kernel
  obtain ⟨⟨r, s, rest⟩, hcall, hr⟩ := Option.map_eq_some_iff.1 hcall
  obtain rfl : r = some 4112 := hr
  have hstep := Step.kmalloc (by decide) (by decide) hfresh hcall
  obtain ⟨l, hinv⟩ := Step.inv hstep ⟨_, arenaWorld_start.inv⟩
  have hlive : allocated arenaWorld.live 100 (some 4112) 4112 = some 100 := by
    show Function.update arenaWorld.live 4112 (some 100) 4112 = some 100
    rw [Function.update_self]
  obtain ⟨fuel, s', l', hfree, -⟩ := Inv.kfree hinv (p := 4112) (n := 100) hlive
  have hrun := Run.cons hstep (Run.single (@Step.kfree 8 _ 4112 100 _ _ hlive hfree))
  exact ⟨_, hrun, (slob_heap_sound arenaWorld_start hrun).1⟩

end Ucore.Slob
