/-
`_lru_map_swappable` moves a page to the front only if the page was not on
the queue. It adds the page first and then deletes the old occurrence with
`list_del`, which reads the links of the page: they are those of the new
place. So the new place is undone, and the old one leads back to the front of
the list.
-/
import Ucore.Swap.Proofs.Data
import Ucore.Swap.Proofs.Queue

namespace Ucore.Swap

open Ucore.Ring

variable {M : PmmManager} {s : State M} {mm : MmStruct} {q pre suf : List Nat}
  {p : Nat}

/-- The page comes to the front of the queue and the others stay in order, so
that the next victim is the last of them. -/
def MovesToFront (mm : MmStruct) (p : Nat) (q : List Nat) (s : State M) :
    Prop :=
  ∃ t u, lruMapSwappable mm p s = some ((), t)
    ∧ Queue t.links (p :: q.erase p)
    ∧ lruSwapOutVictim mm 0 t = some ((p :: q.erase p).getLast?, u)

-- ================================================= the scan finds it

/-- The scan stops at the entry, where it comes to it. -/
theorem lruScan_hit {m : Links Link} {head entry : Link} {pre : List Link}
    (hlinked : Linked m.next (pre ++ [entry])) (hhead : head ∉ pre)
    (hmiss : entry ∉ pre) (hne : entry ≠ head) {fuel : Nat}
    (hfuel : pre.length < fuel) :
    lruScan head entry fuel m (after entry pre) = some (listDel m entry) := by
  induction pre generalizing fuel with
  | nil =>
      cases fuel with
      | zero => exact absurd hfuel (Nat.not_lt_zero _)
      | succ fuel => rw [after_nil, lruScan, if_pos hne, if_pos rfl]
  | cons e pre ih =>
      cases fuel with
      | zero => exact absurd hfuel (Nat.not_lt_zero _)
      | succ fuel =>
          rw [List.mem_cons, not_or] at hhead hmiss
          have hrest : Linked m.next (pre ++ [entry]) := hlinked.tail
          have hnext : m.next e = after entry pre := by
            cases pre with
            | nil => exact (linked_cons_cons.1 hlinked).1
            | cons c pre => exact (linked_cons_cons.1 hlinked).1
          rw [after_cons, lruScan, if_pos (Ne.symm hhead.1), if_neg hmiss.1,
            hnext]
          apply ih hrest hhead.2 hmiss.2
          rw [List.length_cons] at hfuel
          omega

/-- The links after a page that is on the queue was added to it and deleted
again. -/
def relink (m : Links Link) (p : Nat) : Links Link :=
  listDel (listAdd m .praListHead (.page p)) (.page p)

/-- The head leads to the entry it led to, and so does the page. -/
theorem relink_next (m : Links Link) (p : Nat) (c : Link) :
    (relink m p).next c
      = if c = .praListHead ∨ c = .page p then m.next .praListHead
        else m.next c := by
  unfold relink listDel listAdd listAddAfter
  simp only [_listDel_next, _listAdd_next, _listAdd_prev, listPrev, listNext,
    if_true]
  by_cases hhead : c = .praListHead
  · simp [hhead]
  · by_cases hp : c = .page p
    · simp [hp]
    · simp [hhead, hp]

/-- A page that is on the queue is found there. -/
theorem lruMapSwappable_again (hq : Queue s.links (pre ++ p :: suf))
    (hpriv : mm.smPriv = some .praListHead) (hlen : pre.length ≤ npage) :
    lruMapSwappable mm p s
      = some ((), mapLinks (fun m => relink m p) s) := by
  have hmap : (pre ++ p :: suf).map Link.page
      = pre.map .page ++ .page p :: suf.map .page := by
    rw [List.map_append, List.map_cons]
  have hring : IsRing s.links .praListHead
      (pre.map .page ++ .page p :: suf.map .page) := hmap ▸ hq
  have hnot : Link.page p ∉ pre.map Link.page := by
    intro hin
    have hnodup := (List.nodup_cons.1 hring.nodup).2
    exact (List.nodup_append.1 hnodup).2.2 _ hin _ List.mem_cons_self rfl
  have hnothead : Link.praListHead ∉ pre.map Link.page := by simp
  have htop : s.links.next .praListHead = after (.page p) (pre.map .page) := by
    have hcut : IsRing s.links .praListHead
        ([] ++ (pre.map .page ++ .page p :: suf.map .page)) := hring
    have hnext := hcut.next_before
    rw [before_nil] at hnext
    cases hpre : pre.map Link.page with
    | nil => rw [hnext, hpre]; rfl
    | cons c cs => rw [hnext, hpre]; rfl
  -- the links of the pages before it are as they were
  have hlinked : Linked (listAdd s.links .praListHead (.page p)).next
      (pre.map .page ++ [.page p]) := by
    have hcircle : Linked s.links.next ((Link.praListHead :: pre.map .page)
        ++ .page p :: (suf.map .page ++ [.praListHead])) := by
      have hall : Linked s.links.next (Link.praListHead
          :: ((pre.map .page ++ .page p :: suf.map .page)
            ++ [.praListHead])) := hring.circle_next
      simpa using hall
    have hfront : Linked s.links.next (pre.map .page ++ [.page p]) :=
      (linked_split.1 hcircle).1.tail
    apply hfront.congr
    intro x hx
    have hxp : x ≠ .page p := fun heq => hnot (heq ▸ hx)
    have hxh : x ≠ .praListHead := fun heq => hnothead (heq ▸ hx)
    simp [listAdd, listAddAfter, hxp, hxh]
  have hfuel : (pre.map Link.page).length < npage + 1 := by
    rw [List.length_map]
    omega
  have hscan := lruScan_hit hlinked hnothead hnot (by simp) hfuel
  unfold lruMapSwappable
  rw [hpriv]
  show (Call.ofOption (lruScan .praListHead (.page p) (npage + 1)
      (listAdd s.links .praListHead (.page p))
      (s.links.next .praListHead)) >>= fun m =>
        Call.modify (mapLinks fun _ => m)) s = _
  rw [htop, hscan]
  rfl

/-- The links that are left are no queue: the entries after the head lead
round and round through the page. -/
theorem relink_not_queue (hq : Queue s.links (pre ++ p :: suf))
    (q' : List Nat) : ¬ Queue (relink s.links p) q' := by
  intro hleft
  have hring : IsRing s.links .praListHead
      ([] ++ (pre ++ p :: suf).map .page) := hq
  have hnext : s.links.next .praListHead
      = after .praListHead ((pre ++ p :: suf).map .page) := hring.next_before
  have hfirst : s.links.next .praListHead ∈ (pre ++ [p]).map Link.page := by
    rw [hnext]
    cases pre with
    | nil => exact List.mem_cons_self
    | cons c cs => exact List.mem_cons_self
  have hlinked : Linked s.links.next (Link.praListHead
      :: ((pre ++ p :: suf).map .page ++ [.praListHead])) :=
    IsRing.circle_next hq
  -- the pages up to this one are closed under the links
  have hclosed : ∀ c ∈ (pre ++ [p]).map Link.page,
      (relink s.links p).next c ∈ (pre ++ [p]).map Link.page := by
    intro c hc
    rw [relink_next]
    by_cases hp : c = .page p
    · rw [if_pos (.inr hp)]
      exact hfirst
    · have hhead : c ≠ .praListHead := by
        intro heq
        rw [heq] at hc
        simp at hc
      have hno : ¬ (c = .praListHead ∨ c = .page p) :=
        not_or.2 ⟨hhead, hp⟩
      rw [if_neg hno]
      have hpre : c ∈ pre.map Link.page := by
        rw [List.map_append] at hc
        rcases List.mem_append.1 hc with hin | hin
        · exact hin
        · exact absurd (List.mem_singleton.1 hin) hp
      obtain ⟨xs, ys, hsplit⟩ := List.append_of_mem hpre
      have hcut : Linked s.links.next ((Link.praListHead :: xs)
          ++ c :: (ys ++ .page p :: (suf.map .page ++ [.praListHead]))) := by
        have hall := hlinked
        rw [List.map_append, List.map_cons, hsplit] at hall
        simpa using hall
      have hback := (linked_split.1 hcut).2
      rw [List.map_append, hsplit]
      cases ys with
      | nil =>
          rw [(linked_cons_cons.1 hback).1]
          simp
      | cons d ys =>
          rw [(linked_cons_cons.1 hback).1]
          simp
  -- so the head is not reached from the first of them
  have hmem : Link.praListHead ∈ Link.praListHead :: q'.map Link.page :=
    List.mem_cons_self
  have hcircle := IsRing.circle_next hleft
  obtain ⟨k, hk⟩ := (hcircle.mem_iff (hcircle.next_mem hmem)).1 hmem
  have hstay : ∀ k, (relink s.links p).next^[k]
      ((relink s.links p).next .praListHead)
        ∈ (pre ++ [p]).map Link.page := by
    intro k
    induction k with
    | zero =>
        rw [Function.iterate_zero_apply, relink_next, if_pos (.inl rfl)]
        exact hfirst
    | succ k ih =>
        rw [Function.iterate_succ_apply']
        exact hclosed _ ih
  have hin := hstay k
  rw [hk] at hin
  simp at hin

-- ===================================================== map_swappable

/-- A page that is not on the queue comes to the front of it. -/
theorem lruMapSwappable_new (hq : Queue s.links q)
    (hpriv : mm.smPriv = some .praListHead) (hlen : q.length ≤ npage)
    (hp : p ∉ q) : MovesToFront mm p q s := by
  have hmap := mapSwappable_eq .lru hq hpriv hp hlen
  have hadd : Queue (listAdd s.links .praListHead (.page p)) (p :: q) :=
    hq.add hp
  have hlast : p :: q = (p :: q).dropLast ++ [(p :: q).getLast (by simp)] :=
    (List.dropLast_append_getLast (by simp)).symm
  have hcut := hadd
  rw [hlast] at hcut
  have hvictim := @swapOutVictim_concat M
    (mapLinks (fun m => listAdd m .praListHead (.page p)) s) .lru mm
    (p :: q).dropLast ((p :: q).getLast (by simp)) hcut hpriv
  unfold MovesToFront
  rw [List.erase_of_not_mem hp, List.getLast?_eq_some_getLast (by simp)]
  exact ⟨_, _, hmap, hadd, hvictim⟩

/-- The page is moved to the front exactly if it was not on the queue. -/
theorem lruMapSwappable_front (hq : Queue s.links q)
    (hpriv : mm.smPriv = some .praListHead) (hframes : ∀ x ∈ q, x < npage) :
    MovesToFront mm p q s ↔ p ∉ q := by
  have hlen : q.length ≤ npage := by
    have hsub : q ⊆ List.range npage := fun x hx =>
      List.mem_range.2 (hframes x hx)
    have hle := (hq.nodup.subperm hsub).length_le
    rwa [List.length_range] at hle
  constructor
  · intro hmoves hp
    obtain ⟨pre, suf, rfl⟩ := List.append_of_mem hp
    obtain ⟨t, u, hmap, hleft, -⟩ := hmoves
    have hpre : pre.length ≤ npage := by
      rw [List.length_append] at hlen
      omega
    rw [lruMapSwappable_again hq hpriv hpre] at hmap
    cases hmap
    exact relink_not_queue hq _ hleft
  · exact lruMapSwappable_new hq hpriv hlen

/-- The process with one page on the queue. -/
def mappedOnce : State Mm.lowestFirst :=
  mapLinks (fun m => listAdd m .praListHead (.page 0x80301)) process

theorem mappedOnce_queue : Queue mappedOnce.links [0x80301] := by
  have hempty : Queue process.links [] := isRing_nil.2 ⟨rfl, rfl⟩
  exact hempty.add (by simp)

/-- An `mm_struct` whose pages are on the list. -/
def lruMm : MmStruct where
  mmapList := []
  mmapCache := none
  pgdir := 1
  mapCount := 0
  mmCount := 0
  smPriv := some .praListHead

/-- A second page comes to the front. -/
theorem lruMapSwappable_front_second :
    MovesToFront lruMm 0x80302 [0x80301] mappedOnce
      ↔ 0x80302 ∉ [0x80301] := by
  apply lruMapSwappable_front mappedOnce_queue rfl
  intro x hx
  rw [List.mem_singleton.1 hx]
  decide

/-- The same page a second time leaves no queue. -/
theorem lruMapSwappable_again_breaks :
    Queue mappedOnce.links [0x80301]
      ∧ ¬ MovesToFront lruMm 0x80301 [0x80301] mappedOnce := by
  refine ⟨mappedOnce_queue, ?_⟩
  intro hmoves
  obtain ⟨t, u, hmap, hleft, -⟩ := hmoves
  have hcut : Queue mappedOnce.links ([] ++ 0x80301 :: []) := mappedOnce_queue
  rw [lruMapSwappable_again hcut rfl (Nat.zero_le _)] at hmap
  cases hmap
  exact relink_not_queue hcut _ hleft

end Ucore.Swap
