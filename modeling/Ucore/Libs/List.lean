/-
libs/list.h: the kernel's intrusive doubly linked list.

The functions store link fields in the order the C statements do, so a
call whose arguments alias (an entry added after itself) leaves exactly
the fields the C code leaves. Under the assumption the callers are meant
to keep, that the entry being added is not on the list, each function is
one ring operation: the `_ring` theorems at the end say which.
-/
import Ucore.Lib.Ring

namespace Ucore

open Ring

variable {ν : Type} [DecidableEq ν]

-- ==================================================== the operations

/-- `list_init`: an entry linked to itself. -/
def listInit (m : Links ν) (elm : ν) : Links ν :=
  (m.setNext elm elm).setPrev elm elm

/-- `__list_add`: insert between two known entries. `prev->next =
next->prev = elm` stores the inner assignment first. -/
def _listAdd (m : Links ν) (elm prev next : ν) : Links ν :=
  (((m.setPrev next elm).setNext prev elm).setNext elm next).setPrev elm prev

/-- `__list_del`: make two entries point at each other. -/
def _listDel (m : Links ν) (prev next : ν) : Links ν :=
  (m.setNext prev next).setPrev next prev

/-- `list_next`. -/
def listNext (m : Links ν) (listelm : ν) : ν := m.next listelm

/-- `list_prev`. -/
def listPrev (m : Links ν) (listelm : ν) : ν := m.prev listelm

/-- `list_add_after`. -/
def listAddAfter (m : Links ν) (listelm elm : ν) : Links ν :=
  _listAdd m elm listelm (listNext m listelm)

/-- `list_add`: the same as `list_add_after`. -/
def listAdd (m : Links ν) (listelm elm : ν) : Links ν :=
  listAddAfter m listelm elm

/-- `list_add_before`. -/
def listAddBefore (m : Links ν) (listelm elm : ν) : Links ν :=
  _listAdd m elm (listPrev m listelm) listelm

/-- `list_del`: the links of the entry itself keep their values. -/
def listDel (m : Links ν) (listelm : ν) : Links ν :=
  _listDel m (listPrev m listelm) (listNext m listelm)

/-- `list_del_init`. -/
def listDelInit (m : Links ν) (listelm : ν) : Links ν :=
  listInit (listDel m listelm) listelm

/-- `list_empty`. -/
def listEmpty (m : Links ν) (list : ν) : Bool :=
  listNext m list == list

-- ============================================ fields after an update

@[simp] theorem _listAdd_next (m : Links ν) (elm prev next c : ν) :
    (_listAdd m elm prev next).next c
      = if c = elm then next else if c = prev then elm else m.next c := by
  simp [_listAdd]

@[simp] theorem _listAdd_prev (m : Links ν) (elm prev next c : ν) :
    (_listAdd m elm prev next).prev c
      = if c = elm then prev else if c = next then elm else m.prev c := by
  simp [_listAdd]

@[simp] theorem _listDel_next (m : Links ν) (prev next c : ν) :
    (_listDel m prev next).next c
      = if c = prev then next else m.next c := by
  simp [_listDel]

@[simp] theorem _listDel_prev (m : Links ν) (prev next c : ν) :
    (_listDel m prev next).prev c
      = if c = next then prev else m.prev c := by
  simp [_listDel]

@[simp] theorem listInit_next (m : Links ν) (elm c : ν) :
    (listInit m elm).next c = if c = elm then elm else m.next c := by
  simp [listInit]

@[simp] theorem listInit_prev (m : Links ν) (elm c : ν) :
    (listInit m elm).prev c = if c = elm then elm else m.prev c := by
  simp [listInit]

-- ======================================== the ring operation of each

section Rings

variable {m : Links ν} {h e : ν} {xs pre suf : List ν}

/-- `list_init` makes the empty ring. -/
theorem listInit_ring (m : Links ν) (h : ν) : IsRing (listInit m h) h [] :=
  isRing_nil.2 ⟨by simp, by simp⟩

/-- `list_init` of an entry outside a ring leaves the ring alone. -/
theorem listInit_ring_of_notMem (hr : IsRing m h xs) (he : e ∉ h :: xs) :
    IsRing (listInit m e) h xs := by
  refine hr.congr (fun c hc => ?_) (fun c hc => ?_)
  · have hce : c ≠ e := fun heq => he (heq ▸ hc)
    simp [hce]
  · have hce : c ≠ e := fun heq => he (heq ▸ hc)
    simp [hce]

/-- `list_empty` decides emptiness of the ring. -/
theorem listEmpty_ring (hr : IsRing m h xs) :
    listEmpty m h = true ↔ xs = [] := by
  rw [listEmpty, beq_iff_eq]
  exact hr.next_head_eq

/-- `__list_add` across a cut joins the entry into the ring. -/
theorem _listAdd_ring (hr : IsRing m h (pre ++ suf))
    (he : e ∉ h :: (pre ++ suf)) :
    IsRing (_listAdd m e (before h pre) (after h suf)) h
      (pre ++ e :: suf) := by
  have hne : before h pre ≠ e := by
    intro heq
    refine he ?_
    have hmem := before_mem h pre
    rw [heq] at hmem
    exact List.mem_append_left suf hmem
  have hna : after h suf ≠ e := by
    intro heq
    refine he ?_
    have hmem := after_mem h suf
    rw [heq] at hmem
    rcases List.mem_cons.1 hmem with rfl | hmem
    · exact List.mem_cons_self
    · exact List.mem_cons_of_mem _ (List.mem_append_right pre hmem)
  refine hr.join he ?_ ?_ ?_ ?_ (fun c hc hce => ?_) (fun c hc hce => ?_)
  · simp [hne]
  · simp
  · simp
  · simp [hna]
  · simp [hc, hce]
  · simp [hc, hce]

/-- `list_add` puts the entry right after a given one. -/
theorem listAdd_ring (hr : IsRing m h (pre ++ suf))
    (he : e ∉ h :: (pre ++ suf)) :
    IsRing (listAdd m (before h pre) e) h (pre ++ e :: suf) := by
  have hadd := _listAdd_ring hr he
  rw [← hr.next_before] at hadd
  exact hadd

/-- `list_add` after the head. -/
theorem listAdd_ring_head (hr : IsRing m h xs) (he : e ∉ h :: xs) :
    IsRing (listAdd m h e) h (e :: xs) := by
  have hcut : IsRing m h ([] ++ xs) := hr
  exact listAdd_ring hcut he

/-- `list_add_before` puts the entry right before a given one. -/
theorem listAddBefore_ring (hr : IsRing m h (pre ++ suf))
    (he : e ∉ h :: (pre ++ suf)) :
    IsRing (listAddBefore m (after h suf) e) h (pre ++ e :: suf) := by
  have hadd := _listAdd_ring hr he
  rw [← hr.prev_after] at hadd
  exact hadd

/-- `list_del` closes the ring around the entry. -/
theorem listDel_ring (hr : IsRing m h (pre ++ e :: suf)) :
    IsRing (listDel m e) h (pre ++ suf) := by
  have hprev : m.prev e = before h pre := hr.prev_after
  have hnext : m.next e = after h suf := by
    have hcut : IsRing m h ((pre ++ [e]) ++ suf) := by
      rw [List.append_assoc]
      exact hr
    simpa using hcut.next_before
  refine hr.bridge ?_ ?_ (fun c hc => ?_) (fun c hc => ?_)
  · simp [listDel, listPrev, listNext, hprev, hnext]
  · simp [listDel, listPrev, listNext, hprev, hnext]
  · simp [listDel, listPrev, listNext, hprev, hc]
  · simp [listDel, listPrev, listNext, hnext, hc]

/-- `list_del_init` takes the entry out and makes it a ring of its own. -/
theorem listDelInit_ring (hr : IsRing m h (pre ++ e :: suf)) :
    IsRing (listDelInit m e) h (pre ++ suf) := by
  refine listInit_ring_of_notMem (listDel_ring hr) ?_
  have hperm : (h :: (pre ++ e :: suf)).Perm (e :: h :: (pre ++ suf)) :=
    (List.Perm.cons h List.perm_middle).trans (List.Perm.swap _ _ _)
  exact (List.nodup_cons.1 (hperm.nodup_iff.1 hr.nodup)).1

end Rings

-- ================================================ rings side by side

section Frames

variable {m : Links ν} {h k e : ν} {xs ys pre suf : List ν}

/-- Adding to one ring leaves another alone. -/
theorem listAddBefore_ring_frame (hr : IsRing m h (pre ++ suf))
    (hk : IsRing m k ys) (he : e ∉ k :: ys)
    (hdisj : ∀ c ∈ h :: (pre ++ suf), c ∉ k :: ys) :
    IsRing (listAddBefore m (after h suf) e) k ys := by
  have hprev : m.prev (after h suf) = before h pre := hr.prev_after
  have hmema : after h suf ∈ h :: (pre ++ suf) := by
    rcases List.mem_cons.1 (after_mem h suf) with heq | hmem
    · rw [heq]
      exact List.mem_cons_self
    · exact List.mem_cons_of_mem h (List.mem_append_right pre hmem)
  have hmemb : before h pre ∈ h :: (pre ++ suf) :=
    List.mem_append_left suf (before_mem h pre)
  refine hk.congr (fun c hc => ?_) (fun c hc => ?_)
  · have hce : c ≠ e := fun heq => he (heq ▸ hc)
    have hcb : c ≠ before h pre := fun heq =>
      hdisj _ hmemb (heq ▸ hc)
    simp [listAddBefore, listPrev, hprev, hce, hcb]
  · have hce : c ≠ e := fun heq => he (heq ▸ hc)
    have hca : c ≠ after h suf := fun heq => hdisj _ hmema (heq ▸ hc)
    simp [listAddBefore, hce, hca]

/-- The same for `list_add` after the head. -/
theorem listAdd_ring_frame (hr : IsRing m h xs) (hk : IsRing m k ys)
    (he : e ∉ k :: ys) (hdisj : ∀ c ∈ h :: xs, c ∉ k :: ys) :
    IsRing (listAdd m h e) k ys := by
  have hcut : IsRing m h ([] ++ xs) := hr
  have hnext : m.next h = after h xs := hcut.next_before
  refine hk.congr (fun c hc => ?_) (fun c hc => ?_)
  · have hce : c ≠ e := fun heq => he (heq ▸ hc)
    have hch : c ≠ h := fun heq => hdisj h List.mem_cons_self (heq ▸ hc)
    simp [listAdd, listAddAfter, hce, hch]
  · have hce : c ≠ e := fun heq => he (heq ▸ hc)
    have hca : c ≠ after h xs := fun heq =>
      hdisj _ (after_mem h xs) (heq ▸ hc)
    simp [listAdd, listAddAfter, listNext, hnext, hce, hca]

/-- Deleting from one ring leaves another alone. -/
theorem listDel_ring_frame (hr : IsRing m h (pre ++ e :: suf))
    (hk : IsRing m k ys)
    (hdisj : ∀ c ∈ h :: (pre ++ e :: suf), c ∉ k :: ys) :
    IsRing (listDel m e) k ys := by
  have hprev : m.prev e = before h pre := hr.prev_after
  have hnext : m.next e = after h suf := by
    have hcut : IsRing m h ((pre ++ [e]) ++ suf) := by
      rw [List.append_assoc]
      exact hr
    simpa using hcut.next_before
  have hmema : after h suf ∈ h :: (pre ++ e :: suf) := by
    rcases List.mem_cons.1 (after_mem h suf) with heq | hmem
    · rw [heq]
      exact List.mem_cons_self
    · simp [hmem]
  have hmemb : before h pre ∈ h :: (pre ++ e :: suf) :=
    List.mem_append_left (e :: suf) (before_mem h pre)
  refine hk.congr (fun c hc => ?_) (fun c hc => ?_)
  · have hcb : c ≠ before h pre := fun heq => hdisj _ hmemb (heq ▸ hc)
    simp [listDel, listPrev, listNext, hprev, hnext, hcb]
  · have hca : c ≠ after h suf := fun heq => hdisj _ hmema (heq ▸ hc)
    simp [listDel, listPrev, listNext, hprev, hnext, hca]

/-- Deleting with `list_del_init` leaves another ring alone. -/
theorem listDelInit_ring_frame (hr : IsRing m h (pre ++ e :: suf))
    (hk : IsRing m k ys)
    (hdisj : ∀ c ∈ h :: (pre ++ e :: suf), c ∉ k :: ys) :
    IsRing (listDelInit m e) k ys :=
  listInit_ring_of_notMem (listDel_ring_frame hr hk hdisj)
    (hdisj e (by simp))

end Frames

-- ================================================= a family of rings

section Family

variable {ι : Type} [DecidableEq ι]

/-- Rings with different heads that share no entry. -/
structure Rings (m : Links ν) (I : Set ι) (head : ι → ν)
    (L : ι → List ν) : Prop where
  ring : ∀ i ∈ I, IsRing m (head i) (L i)
  apart : ∀ i ∈ I, ∀ j ∈ I, i ≠ j → ∀ c ∈ head i :: L i, c ∉ head j :: L j

variable {m : Links ν} {I : Set ι} {head : ι → ν} {L : ι → List ν} {i : ι}
  {e : ν} {pre suf : List ν}

/-- `list_add` puts an entry that is on no ring in front of one. -/
theorem Rings.add (h : Rings m I head L) (hi : i ∈ I)
    (he : ∀ j ∈ I, e ∉ head j :: L j) :
    Rings (listAdd m (head i) e) I head
      (Function.update L i (e :: L i)) := by
  have hcell : ∀ j ∈ I, ∀ c ∈ head j :: Function.update L i (e :: L i) j,
      c ∈ head j :: L j ∨ j = i ∧ c = e := by
    intro j _ c hc
    by_cases hji : j = i
    · rw [hji, Function.update_self] at hc
      rw [hji]
      rcases List.mem_cons.1 hc with hch | hc
      · exact .inl (hch ▸ List.mem_cons_self)
      · rcases List.mem_cons.1 hc with hce | hc
        · exact .inr ⟨rfl, hce⟩
        · exact .inl (List.mem_cons_of_mem _ hc)
    · rw [Function.update_of_ne hji] at hc
      exact .inl hc
  constructor
  · intro j hj
    by_cases hji : j = i
    · rw [hji, Function.update_self]
      exact listAdd_ring_head (h.ring i hi) (he i hi)
    · rw [Function.update_of_ne hji]
      exact listAdd_ring_frame (h.ring i hi) (h.ring j hj) (he j hj)
        (h.apart i hi j hj (Ne.symm hji))
  · intro j hj k hk hjk c hcj hck
    rcases hcell j hj c hcj with hcj | hcj
    · rcases hcell k hk c hck with hck | hck
      · exact h.apart j hj k hk hjk c hcj hck
      · exact he j hj (hck.2 ▸ hcj)
    · rcases hcell k hk c hck with hck | hck
      · exact he k hk (hcj.2 ▸ hck)
      · exact hjk (hcj.1.trans hck.1.symm)

/-- `list_del` takes an entry off its ring. -/
theorem Rings.del (h : Rings m I head L) (hi : i ∈ I)
    (hL : L i = pre ++ e :: suf) :
    Rings (listDel m e) I head (Function.update L i (pre ++ suf)) := by
  have hring := h.ring i hi
  rw [hL] at hring
  have hcell : ∀ j, ∀ c ∈ head j :: Function.update L i (pre ++ suf) j,
      c ∈ head j :: L j := by
    intro j c hc
    by_cases hji : j = i
    · rw [hji, Function.update_self] at hc
      rw [hji, hL]
      rcases List.mem_cons.1 hc with hch | hc
      · exact hch ▸ List.mem_cons_self
      · refine List.mem_cons_of_mem _ ?_
        rcases List.mem_append.1 hc with hc | hc
        · exact List.mem_append_left _ hc
        · exact List.mem_append_right _ (List.mem_cons_of_mem e hc)
    · rw [Function.update_of_ne hji] at hc
      exact hc
  constructor
  · intro j hj
    by_cases hji : j = i
    · rw [hji, Function.update_self]
      exact listDel_ring hring
    · rw [Function.update_of_ne hji]
      refine listDel_ring_frame hring (h.ring j hj) ?_
      rw [← hL]
      exact h.apart i hi j hj (Ne.symm hji)
  · intro j hj k hk hjk c hcj hck
    exact h.apart j hj k hk hjk c (hcell j c hcj) (hcell k c hck)

end Family

end Ucore
