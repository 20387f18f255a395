/-
The swap managers as queues: on the ring of `pra_list_head` a page enters
at the front and the victim is the one at the back.
-/
import Ucore.Swap.Manager

namespace Ucore.Swap

open Ucore.Ring

variable {M : PmmManager} {s : State M} {sm : Manager} {mm : MmStruct}
  {q : List Nat} {p : Nat}

/-- The pages on the queue, from the front. -/
def Queue (m : Links Link) (q : List Nat) : Prop :=
  IsRing m .praListHead (q.map .page)

theorem Queue.unique {m : Links Link} {q' : List Nat} (h : Queue m q)
    (h' : Queue m q') : q = q' := by
  have hinj : Function.Injective Link.page := fun a b heq => by
    cases heq
    rfl
  exact List.map_injective_iff.mpr hinj (IsRing.unique h h')

theorem Queue.nodup {m : Links Link} (h : Queue m q) : q.Nodup := by
  have hnodup := (List.nodup_cons.1 (IsRing.nodup h)).2
  exact List.Nodup.of_map _ hnodup

theorem notMem_head {e : Link} (he : e = .page p) (hp : p ∉ q) :
    e ∉ Link.praListHead :: q.map Link.page := by
  subst he
  simp [hp]

/-- `list_init` of the head makes the empty queue. -/
theorem queue_init (m : Links Link) :
    Queue (listInit m .praListHead) [] :=
  listInit_ring m .praListHead

/-- `list_add` after the head puts a page in front. -/
theorem Queue.add {m : Links Link} (h : Queue m q) (hp : p ∉ q) :
    Queue (listAdd m .praListHead (.page p)) (p :: q) :=
  listAdd_ring_head h (notMem_head rfl hp)

/-- `list_del` of the last entry. -/
theorem Queue.del {m : Links Link} (h : Queue m (q ++ [p])) :
    Queue (listDel m (.page p)) q := by
  have hring : IsRing m .praListHead (q.map .page ++ .page p :: []) := by
    have hmap : (q ++ [p]).map Link.page = q.map .page ++ [.page p] :=
      List.map_append
    exact hmap ▸ h
  have hdel := listDel_ring hring
  rwa [List.append_nil] at hdel

theorem Queue.prev_nil {m : Links Link} (h : Queue m []) :
    listPrev m .praListHead = .praListHead :=
  (isRing_nil.mp h).2

theorem Queue.prev_concat {m : Links Link} (h : Queue m (q ++ [p])) :
    listPrev m .praListHead = .page p := by
  have hcut : IsRing m .praListHead ((q ++ [p]).map .page ++ []) := by
    rw [List.append_nil]
    exact h
  have hprev := hcut.prev_after
  rwa [List.map_append, List.map_singleton, before_concat] at hprev

-- =================================================== swap_out_victim

/-- An empty queue has no victim. -/
theorem swapOutVictim_nil (sm : Manager) (hq : Queue s.links [])
    (hpriv : mm.smPriv = some .praListHead) :
    ∃ t, swapOutVictim sm mm 0 s = some (none, t) := by
  have hprev := hq.prev_nil
  cases sm with
  | fifo =>
      refine ⟨s, ?_⟩
      show fifoSwapOutVictim mm 0 s = _
      unfold fifoSwapOutVictim
      rw [hpriv]
      show (if listPrev s.links .praListHead ≠ .praListHead then _ else _ :
        Call (State M) (Option Nat)) s = _
      rw [if_neg (not_not_intro hprev)]
      rfl
  | lru =>
      refine ⟨mapLinks (fun m => listDel m .praListHead) s, ?_⟩
      show lruSwapOutVictim mm 0 s = _
      unfold lruSwapOutVictim
      rw [hpriv]
      show some (le2page (listPrev s.links .praListHead),
        mapLinks (fun m => listDel m (listPrev s.links .praListHead)) s) = _
      rw [hprev]
      rfl

/-- The victim is the page at the back of the queue. -/
theorem swapOutVictim_concat (hq : Queue s.links (q ++ [p]))
    (hpriv : mm.smPriv = some .praListHead) :
    swapOutVictim sm mm 0 s
      = some (some p, mapLinks (fun m => listDel m (.page p)) s) := by
  have hprev := hq.prev_concat
  cases sm with
  | fifo =>
      show fifoSwapOutVictim mm 0 s = _
      unfold fifoSwapOutVictim
      rw [hpriv]
      show (if listPrev s.links .praListHead ≠ .praListHead then do
          Call.modify (mapLinks fun m =>
            listDel m (listPrev s.links .praListHead))
          pure (le2page (listPrev s.links .praListHead))
        else pure none : Call (State M) (Option Nat)) s = _
      rw [hprev, if_pos (by simp)]
      rfl
  | lru =>
      show lruSwapOutVictim mm 0 s = _
      unfold lruSwapOutVictim
      rw [hpriv]
      show some (le2page (listPrev s.links .praListHead),
        mapLinks (fun m => listDel m (listPrev s.links .praListHead)) s) = _
      rw [hprev]
      rfl

-- ===================================================== map_swappable

/-- The scan of `_lru_map_swappable` over entries that are not the page's
comes back to the head. -/
theorem lruScan_miss {m : Links Link} {head entry : Link}
    {pre suf : List Link} (hring : IsRing m head (pre ++ suf))
    (hmiss : entry ∉ suf) {fuel : Nat} (hfuel : suf.length < fuel) :
    lruScan head entry fuel m (after head suf) = some m := by
  induction suf generalizing pre fuel with
  | nil =>
      cases fuel with
      | zero => exact absurd hfuel (Nat.not_lt_zero _)
      | succ fuel =>
          rw [after_nil, lruScan, if_neg (not_not_intro rfl)]
  | cons e suf ih =>
      cases fuel with
      | zero => exact absurd hfuel (Nat.not_lt_zero _)
      | succ fuel =>
          have hne : e ≠ head := by
            intro heq
            apply (List.nodup_cons.1 hring.nodup).1
            rw [heq]
            exact List.mem_append_right pre List.mem_cons_self
          have hcut : IsRing m head ((pre ++ [e]) ++ suf) := by
            rw [List.append_assoc]
            exact hring
          have hnext : m.next e = after head suf := by
            have := hcut.next_before
            rwa [before_concat] at this
          rw [List.mem_cons, not_or] at hmiss
          rw [after_cons, lruScan, if_pos hne, if_neg hmiss.1, hnext]
          apply ih hcut hmiss.2
          rw [List.length_cons] at hfuel
          omega

/-- A page that is not on the queue comes to the front of it. -/
theorem mapSwappable_eq (sm : Manager) (hq : Queue s.links q)
    (hpriv : mm.smPriv = some .praListHead) (hp : p ∉ q)
    (hlen : q.length ≤ npage) :
    mapSwappable sm mm p s
      = some ((), mapLinks (fun m => listAdd m .praListHead (.page p)) s) := by
  cases sm with
  | fifo =>
      show fifoMapSwappable mm p s = _
      unfold fifoMapSwappable
      rw [hpriv]
      rfl
  | lru =>
      have hcut : IsRing s.links .praListHead ([] ++ q.map .page) := hq
      have htop : s.links.next .praListHead
          = after .praListHead (q.map .page) := hcut.next_before
      have hscan : lruScan .praListHead (.page p) (npage + 1)
          (listAdd s.links .praListHead (.page p))
          (s.links.next .praListHead)
          = some (listAdd s.links .praListHead (.page p)) := by
        rw [htop]
        have hring : IsRing (listAdd s.links .praListHead (.page p))
            .praListHead ([.page p] ++ q.map .page) := hq.add hp
        refine lruScan_miss hring ?_ ?_
        · simp [hp]
        · rw [List.length_map]
          omega
      show lruMapSwappable mm p s = _
      unfold lruMapSwappable
      rw [hpriv]
      show (Call.ofOption (lruScan .praListHead (.page p) (npage + 1)
          (listAdd s.links .praListHead (.page p))
          (s.links.next .praListHead)) >>= fun m =>
            Call.modify (mapLinks fun _ => m)) s = _
      rw [hscan]
      rfl

end Ucore.Swap
