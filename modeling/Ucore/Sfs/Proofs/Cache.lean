/-
Whatever the order in which threads load inodes, take and drop references
and reclaim, every inode in memory is the only one for its number, is freed
once, and not while it is referenced (`inode_lifecycle`).

A thread whose drop leaves no reference counts in `reclaim_count` until it
has `fs_sem`, and the references do together: a load that finds the inode
before that makes the count two, and the thread then leaves it alone. So the
count that comes to zero is that of the last thread (`Life.Reads`), and it
has the freeing before it (`Life.Due`).
-/
import Ucore.Sfs.Cache
import Mathlib.Tactic.ByContra

namespace Ucore.Sfs.Cache

variable {θ : Type} {w w' : World θ} {t u : θ} {n m ino refs : Nat} {pc : Pc}
  {life life' : Life θ}

-- ========================================================= the index

theorem Indexed.congr (h : Indexed w) (hino : ∀ n, w'.inoAt n = w.inoAt n)
    (hlist : w'.inodeList = w.inodeList) (hhash : w'.hashList = w.hashList) :
    Indexed w' where
  nodup := hlist ▸ h.nodup
  listed n := by rw [hlist, hino]; exact h.listed n
  hashNodup b := hhash ▸ h.hashNodup b
  hashed b n := by rw [hhash, hino]; exact h.hashed b n
  unique n m ino hn hm := by
    rw [hino] at hn hm
    exact h.unique n m ino hn hm

/-- `lookup_sfs_nolock` finds the inode with the number. -/
theorem Indexed.find_some (h : Indexed w) (hfind : find w ino = some n) :
    w.inoAt n = some ino := by
  have hany := List.find?_some hfind
  rw [World.inoAt]
  cases hnode : w.nodes n with
  | none =>
      rw [hnode] at hany
      cases hany
  | some node =>
      rw [hnode] at hany
      exact congrArg some (of_decide_eq_true hany)

theorem Indexed.find_none (h : Indexed w) (hfind : find w ino = none) (n : Nat) :
    w.inoAt n ≠ some ino := by
  intro hino
  have hmem := (h.hashed (sinHashfn ino) n).mpr ⟨ino, hino, rfl⟩
  have hnot := List.find?_eq_none.mp hfind n hmem
  obtain ⟨node, hnode, heq⟩ := Option.map_eq_some_iff.mp hino
  rw [hnode] at hnot
  exact hnot (decide_eq_true heq)

theorem inoAt_create {nlinks : Nat} (hn : w.nodes n = none) (m : Nat) :
    (create w n ino nlinks).inoAt m = if m = n then some ino else w.inoAt m := by
  show (Function.update w.nodes n _ m).map Node.ino = _
  rw [Function.update_apply]
  split
  case isTrue => rfl
  case isFalse => rfl

theorem Indexed.create (h : Indexed w) (nlinks : Nat) (hn : w.nodes n = none)
    (hmissing : ∀ m, w.inoAt m ≠ some ino) : Indexed (create w n ino nlinks) := by
  have hno : w.inoAt n = none := by rw [World.inoAt, hn, Option.map_none]
  have hfresh : n ∉ w.inodeList := by
    rw [h.listed, hno]
    rintro ⟨⟩
  have hhashFresh : ∀ b, n ∉ w.hashList b := by
    intro b hmem
    obtain ⟨i, hi, -⟩ := (h.hashed b n).mp hmem
    rw [hno] at hi
    cases hi
  refine ⟨List.nodup_cons.mpr ⟨hfresh, h.nodup⟩, fun m => ?_, fun b => ?_,
    fun b m => ?_, fun m k i hm hk => ?_⟩
  · rw [inoAt_create hn]
    show m ∈ n :: w.inodeList ↔ _
    rw [List.mem_cons]
    split
    case isTrue heq => exact iff_of_true (.inl heq) rfl
    case isFalse hne => rw [← h.listed, or_iff_right hne]
  · show (Function.update w.hashList (sinHashfn ino) _ b).Nodup
    rw [Function.update_apply]
    split
    case isTrue heq => exact List.nodup_cons.mpr ⟨hhashFresh _, h.hashNodup _⟩
    case isFalse => exact h.hashNodup b
  · rw [inoAt_create hn]
    show m ∈ Function.update w.hashList (sinHashfn ino) _ b ↔ _
    rw [Function.update_apply]
    by_cases hm : m = n
    · subst hm
      rw [if_pos rfl]
      by_cases hb : b = sinHashfn ino
      · rw [if_pos hb]
        exact iff_of_true List.mem_cons_self ⟨ino, rfl, hb.symm⟩
      · rw [if_neg hb]
        refine iff_of_false (hhashFresh b) fun hsome => ?_
        obtain ⟨i, hi, hhash⟩ := hsome
        cases hi
        exact hb hhash.symm
    · rw [if_neg hm, ← h.hashed b m]
      by_cases hb : b = sinHashfn ino
      · rw [if_pos hb, List.mem_cons, or_iff_right hm, hb]
      · rw [if_neg hb]
  · rw [inoAt_create hn] at hm hk
    split at hm
    case isTrue hmn =>
      split at hk
      case isTrue hkn => rw [hmn, hkn]
      case isFalse =>
        cases hm
        exact absurd hk (hmissing k)
    case isFalse =>
      split at hk
      case isTrue =>
        cases hk
        exact absurd hm (hmissing m)
      case isFalse => exact h.unique m k i hm hk

theorem inoAt_kill (m : Nat) :
    (kill w n ino).inoAt m = if m = n then none else w.inoAt m := by
  show (Function.update w.nodes n none m).map Node.ino = _
  rw [Function.update_apply]
  split
  case isTrue => rfl
  case isFalse => rfl

theorem Indexed.kill (h : Indexed w) (hn : w.inoAt n = some ino) :
    Indexed (kill w n ino) := by
  refine ⟨h.nodup.erase n, fun m => ?_, fun b => ?_, fun b m => ?_,
    fun m k i hm hk => ?_⟩
  · rw [inoAt_kill]
    show m ∈ w.inodeList.erase n ↔ _
    rw [h.nodup.mem_erase_iff]
    split
    case isTrue heq =>
        exact iff_of_false (fun hmem => hmem.1 heq) (fun h => by cases h)
    case isFalse hne => rw [← h.listed, and_iff_right hne]
  · show (Function.update w.hashList (sinHashfn ino) _ b).Nodup
    rw [Function.update_apply]
    split
    case isTrue heq => exact (h.hashNodup _).erase n
    case isFalse => exact h.hashNodup b
  · rw [inoAt_kill]
    show m ∈ Function.update w.hashList (sinHashfn ino) _ b ↔ _
    rw [Function.update_apply]
    by_cases hm : m = n
    · subst hm
      rw [if_pos rfl]
      refine iff_of_false ?_ (by simp)
      by_cases hb : b = sinHashfn ino
      · rw [if_pos hb, (h.hashNodup _).mem_erase_iff]
        exact fun hmem => hmem.1 rfl
      · rw [if_neg hb, h.hashed]
        intro hsome
        obtain ⟨i, hi, hhash⟩ := hsome
        rw [hn] at hi
        cases hi
        exact hb hhash.symm
    · rw [if_neg hm, ← h.hashed b m]
      by_cases hb : b = sinHashfn ino
      · rw [if_pos hb, (h.hashNodup _).mem_erase_iff, and_iff_right hm, hb]
      · rw [if_neg hb]
  · rw [inoAt_kill] at hm hk
    split at hm
    case isTrue => cases hm
    case isFalse =>
      split at hk
      case isTrue => cases hk
      case isFalse => exact h.unique m k i hm hk

-- =================================================== the other nodes

/-- The node of a call, while the thread is counted at it. -/
def Pc.node : Pc → Option Nat
  | .reclaiming n => some n
  | .flushing n => some n
  | _ => none

theorem placed_off (h : pc.node ≠ some n) (hwaiting : t ∉ life.waiting)
    (hflusher : life.flusher ≠ some t) : Placed pc n t life := by
  refine ⟨iff_of_false (fun hpc => ?_) hwaiting, iff_of_false (fun hpc => ?_) hflusher⟩
  · exact h (by rw [hpc]; rfl)
  · exact h (by rw [hpc]; rfl)

theorem Placed.off (h : Placed pc n t life) (hpc : pc.node ≠ some n) :
    t ∉ life.waiting ∧ life.flusher ≠ some t := by
  refine ⟨fun hmem => ?_, fun heq => ?_⟩
  · exact hpc (by rw [h.reclaiming.mpr hmem]; rfl)
  · exact hpc (by rw [h.flushing.mpr heq]; rfl)

variable [DecidableEq θ]

/-- An address that the thread is not counted at, and is not. -/
theorem NodeSound.elsewhere (h : NodeSound w m life)
    (hpc : w'.pc = Function.update w.pc t pc) (hnode : w'.nodes m = w.nodes m)
    (hheld : w'.held m = w.held m) (hlog : w'.log m = w.log m)
    (hbefore : (w.pc t).node ≠ some m) (hafter : pc.node ≠ some m) :
    NodeSound w' m life := by
  refine ⟨hlog ▸ h.lived, hnode ▸ h.reads, hheld.trans h.held, h.due, fun u => ?_⟩
  rw [hpc]
  rcases eq_or_ne u t with rfl | hu
  · rw [Function.update_self]
    obtain ⟨hwaiting, hflusher⟩ := (h.placed u).off hbefore
    exact placed_off hafter hwaiting hflusher
  · rw [Function.update_of_ne hu]
    exact h.placed u

/-- What a call does at an address: the events, and the node and the
references that it leaves. -/
structure Turns (t : θ) (n : Nat) (life : Life θ) (pc : Pc) (es : List Event)
    (node : Option Node) (held : Nat) (life' : Life θ) : Prop where
  accepted : accepts accept life.seen es = some life'.seen
  reads : life'.Reads node
  held : held = life'.refs
  due : life'.Due
  self : Placed pc n t life'
  others : ∀ u ≠ t, ∀ pc, Placed pc n u life → Placed pc n u life'

theorem NodeSound.turned {es : List Event} {node : Option Node} {held : Nat}
    (h : NodeSound w n life) (hpc : w'.pc = Function.update w.pc t pc)
    (hlog : w'.log n = w.log n ++ es) (hnode : w'.nodes n = node)
    (hheld : w'.held n = held) (hturns : Turns t n life pc es node held life') :
    NodeSound w' n life' := by
  refine ⟨?_, hnode ▸ hturns.reads, hheld.trans hturns.held, hturns.due, fun u => ?_⟩
  · rw [hlog, accepts_append, h.lived]
    exact hturns.accepted
  · rw [hpc]
    rcases eq_or_ne u t with rfl | hu
    · rw [Function.update_self]
      exact hturns.self
    · rw [Function.update_of_ne hu]
      exact hturns.others u hu _ (h.placed u)

omit [DecidableEq θ] in
theorem Placed.congr (h : Placed pc n u life)
    (hwaiting : u ∈ life'.waiting ↔ u ∈ life.waiting)
    (hflusher : life'.flusher = some u ↔ life.flusher = some u) :
    Placed pc n u life' :=
  ⟨h.reclaiming.trans hwaiting.symm, h.flushing.trans hflusher.symm⟩

-- ========================================================== the lock

theorem locked_same (h : ∀ u, w.fsSem = some u ↔ (w.pc u).Locks)
    (hbefore : ¬ (w.pc t).Locks) (hafter : ¬ pc.Locks) (u : θ) :
    w.fsSem = some u ↔ (Function.update w.pc t pc u).Locks := by
  rcases eq_or_ne u t with rfl | hu
  · rw [Function.update_self, h]
    exact iff_of_false hbefore hafter
  · rw [Function.update_of_ne hu]
    exact h u

theorem locked_taken (h : ∀ u, w.fsSem = some u ↔ (w.pc u).Locks)
    (hfree : w.fsSem = none) (hafter : pc.Locks) (u : θ) :
    some t = some u ↔ (Function.update w.pc t pc u).Locks := by
  rcases eq_or_ne u t with rfl | hu
  · rw [Function.update_self]
    exact iff_of_true rfl hafter
  · rw [Function.update_of_ne hu, ← h, hfree]
    exact iff_of_false (fun heq => hu (Option.some.inj heq).symm)
      (fun h => by cases h)

theorem locked_left (h : ∀ u, w.fsSem = some u ↔ (w.pc u).Locks)
    (hbefore : (w.pc t).Locks) (hafter : ¬ pc.Locks) (u : θ) :
    none = some u ↔ (Function.update w.pc t pc u).Locks := by
  refine iff_of_false (fun h => by cases h) fun hlocks => ?_
  rcases eq_or_ne u t with rfl | hu
  · rw [Function.update_self] at hlocks
    exact hafter hlocks
  · rw [Function.update_of_ne hu, ← h, (h t).mpr hbefore] at hlocks
    exact hu (Option.some.inj hlocks).symm

-- ====================================================== what is kept

/-- A thread goes from a place where it is not counted to another. -/
theorem Sound.goto (h : Sound w) (sem : Option θ) (hbefore : (w.pc t).node = none)
    (hafter : pc.node = none)
    (hlocked : ∀ u, sem = some u ↔ (Function.update w.pc t pc u).Locks)
    (hmissing : ∀ i, pc = .reading i → ∀ n, w.inoAt n ≠ some i) :
    Sound ({ w with fsSem := sem }.goto t pc) := by
  refine ⟨fun m => ?_, h.indexed.congr (fun _ => rfl) rfl rfl, hlocked,
    fun u i hu => ?_⟩
  · obtain ⟨life, hlife⟩ := h.nodes m
    exact ⟨life, hlife.elsewhere rfl rfl rfl rfl (by rw [hbefore]; rintro ⟨⟩)
      (by rw [hafter]; rintro ⟨⟩)⟩
  · change Function.update w.pc t pc u = _ at hu
    rcases eq_or_ne u t with rfl | hne
    · rw [Function.update_self] at hu
      exact hmissing i hu
    · rw [Function.update_of_ne hne] at hu
      exact h.missing u i hu

theorem inoAt_setNode {node node' : Node} {held : Nat} {es : List Event}
    (hnode : w.nodes n = some node) (hino : node'.ino = node.ino) (m : Nat) :
    (w.setNode n node' held es).inoAt m = w.inoAt m := by
  show (Function.update w.nodes n (some node') m).map Node.ino = (w.nodes m).map Node.ino
  rw [Function.update_apply]
  split
  case isTrue heq => rw [heq, hnode, Option.map_some, Option.map_some, hino]
  case isFalse => rfl

/-- A thread does something at a node that stays in memory. -/
theorem Sound.turn {node node' : Node} {held : Nat} {es : List Event}
    (h : Sound w) (sem : Option θ) (hlife : NodeSound w n life)
    (hnode : w.nodes n = some node)
    (hturns : Turns t n life pc es (some node') held life')
    (hino : node'.ino = node.ino)
    (hlocked : ∀ u, sem = some u ↔ (Function.update w.pc t pc u).Locks)
    (hbefore : ∀ m ≠ n, (w.pc t).node ≠ some m) (hafter : ∀ m ≠ n, pc.node ≠ some m)
    (hreading : ∀ i, pc ≠ .reading i) :
    Sound ({ w.setNode n node' held es with fsSem := sem }.goto t pc) := by
  have hsame : ∀ m, (w.setNode n node' held es).inoAt m = w.inoAt m :=
    inoAt_setNode hnode hino
  refine ⟨fun m => ?_, h.indexed.congr hsame rfl rfl, hlocked, fun u i hu m => ?_⟩
  · rcases eq_or_ne m n with rfl | hm
    · exact ⟨life', hlife.turned rfl (Function.update_self _ _ _)
        (Function.update_self _ _ _) (Function.update_self _ _ _) hturns⟩
    · obtain ⟨other, hother⟩ := h.nodes m
      exact ⟨other, hother.elsewhere rfl (Function.update_of_ne hm _ _)
        (Function.update_of_ne hm _ _) (Function.update_of_ne hm _ _)
        (hbefore m hm) (hafter m hm)⟩
  · change Function.update w.pc t pc u = _ at hu
    rcases eq_or_ne u t with rfl | hne
    · rw [Function.update_self] at hu
      exact absurd hu (hreading i)
    · rw [Function.update_of_ne hne] at hu
      exact fun heq => h.missing u i hu m ((hsame m).symm.trans heq)

-- ============================================== the life of an inode

/-- An address with a node. -/
theorem NodeSound.cached {node : Node} (h : NodeSound w n life)
    (hnode : w.nodes n = some node) :
    ∃ ino refs waiting flusher nlinks, life = .cached ino refs waiting flusher
      ∧ node = nodeWith ino refs (waiting.card + if 0 < refs then 1 else 0) nlinks
      ∧ nlinks ≠ 0 := by
  have hreads := h.reads
  rw [hnode] at hreads
  match life, hreads with
  | .cached ino refs waiting flusher, ⟨nlinks, hlinks, heq⟩ =>
      exact ⟨ino, refs, waiting, flusher, nlinks, rfl, Option.some.inj heq, hlinks⟩

theorem NodeSound.absent (h : NodeSound w n life) (hnode : w.nodes n = none) :
    life = .absent := by
  have hreads := h.reads
  rw [hnode] at hreads
  match life, hreads with
  | .absent, _ => rfl
  | .cached _ _ _ _, ⟨nlinks, hlinks, heq⟩ => cases heq

/-- Where references are, there is a node. -/
theorem NodeSound.exists_node (h : NodeSound w n life) (hheld : 0 < w.held n) :
    ∃ node, w.nodes n = some node := by
  cases hnode : w.nodes n with
  | some node => exact ⟨node, rfl⟩
  | none =>
      obtain rfl := h.absent hnode
      have hzero := h.held
      rw [hzero] at hheld
      exact absurd hheld (Nat.lt_irrefl 0)

section Turns

variable {waiting : Finset θ} {flusher : Option θ} {nlinks : Nat}

/-- A reference, taken or found. -/
theorem turns_got (hlinks : nlinks ≠ 0) (ht : t ∉ waiting) :
    Turns t n (.cached ino refs waiting none) .idle [.got]
      (some (nodeWith ino (refs + 1) (waiting.card + 1) nlinks)) (refs + 1)
      (.cached ino (refs + 1) waiting none) where
  accepted := rfl
  reads := ⟨nlinks, hlinks, by rw [if_pos (Nat.succ_pos refs)]⟩
  held := rfl
  due := ⟨(fun h => by cases h), fun h => by cases h⟩
  self := placed_off (fun h => by cases h) ht (fun h => by cases h)
  others _ _ _ h := h.congr Iff.rfl Iff.rfl

/-- A reference is dropped, and another is left. -/
theorem turns_dropped (hlinks : nlinks ≠ 0) (ht : t ∉ waiting) :
    Turns t n (.cached ino (refs + 2) waiting none) .idle [.dropped]
      (some (nodeWith ino (refs + 1) (waiting.card + 1) nlinks)) (refs + 1)
      (.cached ino (refs + 1) waiting none) where
  accepted := rfl
  reads := ⟨nlinks, hlinks, by rw [if_pos (Nat.succ_pos refs)]⟩
  held := rfl
  due := ⟨(fun h => by cases h), fun h => by cases h⟩
  self := placed_off (fun h => by cases h) ht (fun h => by cases h)
  others _ _ _ h := h.congr Iff.rfl Iff.rfl

/-- The last reference is dropped: the thread counts from now on. -/
theorem turns_last (hlinks : nlinks ≠ 0) (ht : t ∉ waiting) :
    Turns t n (.cached ino 1 waiting none) (.reclaiming n) [.dropped]
      (some (nodeWith ino 0 (waiting.card + 1) nlinks)) 0
      (.cached ino 0 (insert t waiting) none) where
  accepted := rfl
  reads := by
    refine ⟨nlinks, hlinks, ?_⟩
    rw [if_neg (Nat.lt_irrefl 0), Finset.card_insert_of_notMem ht]
  held := rfl
  due := ⟨fun _ => .inl (Finset.insert_nonempty t waiting), fun h => by cases h⟩
  self := ⟨iff_of_true rfl (Finset.mem_insert_self t waiting),
    iff_of_false (fun h => by cases h) (fun h => by cases h)⟩
  others _ hu _ h :=
    h.congr (Finset.mem_insert.trans (or_iff_right hu)) Iff.rfl

/-- A thread leaves an inode alone: it is in use, or another will free it. -/
theorem turns_spared (hlinks : nlinks ≠ 0)
    (hleft : refs = 0 → (waiting.erase t).Nonempty) :
    Turns t n (.cached ino refs waiting none) .idle []
      (some (nodeWith ino refs ((waiting.erase t).card + if 0 < refs then 1 else 0)
        nlinks)) refs
      (.cached ino refs (waiting.erase t) none) where
  accepted := rfl
  reads := ⟨nlinks, hlinks, rfl⟩
  held := rfl
  due := ⟨fun hzero => .inl (hleft hzero), fun h => by cases h⟩
  self := placed_off (fun h => by cases h) (Finset.notMem_erase t waiting)
    (fun h => by cases h)
  others _ hu _ h :=
    h.congr (Finset.mem_erase.trans (and_iff_right hu)) Iff.rfl

/-- The last thread is going to free the inode. -/
theorem turns_chosen (hlinks : nlinks ≠ 0) (hlast : waiting.erase t = ∅) :
    Turns t n (.cached ino 0 waiting none) (.flushing n) []
      (some (nodeWith ino 0 0 nlinks)) 0 (.cached ino 0 ∅ (some t)) where
  accepted := rfl
  reads := ⟨nlinks, hlinks, rfl⟩
  held := rfl
  due := ⟨fun _ => .inr rfl, fun _ => ⟨rfl, rfl⟩⟩
  self := ⟨iff_of_false (fun h => by cases h) (Finset.notMem_empty t),
    iff_of_true rfl rfl⟩
  others u hu _ h := by
    refine h.congr (iff_of_false (Finset.notMem_empty u) fun hmem => ?_)
      (iff_of_false (fun heq => hu (Option.some.inj heq).symm)
      (fun h => by cases h))
    have herase : u ∈ waiting.erase t := Finset.mem_erase.mpr ⟨hu, hmem⟩
    rw [hlast] at herase
    exact Finset.notMem_empty u herase

/-- An inode comes into memory. -/
theorem turns_created (hlinks : nlinks ≠ 0) :
    Turns t n .absent .idle [.created ino] (some (nodeWith ino 1 1 nlinks)) 1
      (.cached ino 1 ∅ none) where
  accepted := rfl
  reads := ⟨nlinks, hlinks, rfl⟩
  held := rfl
  due := ⟨(fun h => by cases h), fun h => by cases h⟩
  self :=
    placed_off (fun h => by cases h) (Finset.notMem_empty t) (fun h => by cases h)
  others _ _ _ h := h.congr Iff.rfl Iff.rfl

/-- And out of it. -/
theorem turns_freed :
    Turns t n (.cached ino 0 ∅ (some t)) .idle [.freed] none 0 .absent where
  accepted := rfl
  reads := rfl
  held := rfl
  due := trivial
  self :=
    placed_off (fun h => by cases h) (Finset.notMem_empty t) (fun h => by cases h)
  others _ hu _ h := h.congr Iff.rfl
    (iff_of_false (fun h => by cases h) fun heq => hu (Option.some.inj heq).symm)

end Turns

-- ======================================================= the actions

/-- While no thread has `fs_sem`, none is freeing an inode. -/
theorem Sound.no_flusher {waiting : Finset θ} {flusher : Option θ} (h : Sound w)
    (hlife : NodeSound w n (.cached ino refs waiting flusher))
    (hfree : 0 < refs ∨ w.fsSem = none) : flusher = none := by
  cases hflusher : flusher with
  | none => rfl
  | some u =>
      subst hflusher
      rcases hfree with hpos | hfree
      · exact absurd (hlife.due.2 rfl).1 (Nat.ne_of_gt hpos)
      · have hpc := (hlife.placed u).flushing.mpr rfl
        have hlocked := (h.locked u).mpr (by rw [hpc]; trivial)
        rw [hfree] at hlocked
        cases hlocked

/-- A reference more, and where it is the first one count more. -/
theorem refInc_found (ino refs count nlinks : Nat) :
    refInc (nodeWith ino refs (count + if 0 < refs then 1 else 0) nlinks) true
      = nodeWith ino (refs + 1) (count + 1) nlinks := by
  cases refs with
  | zero => rfl
  | succ refs =>
      have hmore : ¬ (true = true ∧ ((refs + 1 : Nat) : Int) + 1 = 1) := by omega
      rw [if_pos (Nat.succ_pos refs)]
      simp only [refInc, nodeWith, if_neg hmore]
      rfl

theorem refInc_kept (count nlinks : Nat) (hpos : 0 < refs) :
    refInc (nodeWith ino refs (count + if 0 < refs then 1 else 0) nlinks) false
      = nodeWith ino (refs + 1) (count + 1) nlinks := by
  rw [if_pos hpos]
  rfl

theorem Sound.load_found (h : Sound w) (hpc : w.pc t = .loading ino)
    (hfree : w.fsSem = none) (hfind : find w ino = some n) :
    ∃ node, w.nodes n = some node
      ∧ Sound ((w.setNode n (refInc node true) (w.held n + 1) [.got]).goto t .idle) := by
  obtain ⟨node, hnode, -⟩ := Option.map_eq_some_iff.mp (h.indexed.find_some hfind)
  obtain ⟨life, hlife⟩ := h.nodes n
  obtain ⟨i, refs, waiting, flusher, nlinks, rfl, rfl, hlinks⟩ := hlife.cached hnode
  obtain rfl := h.no_flusher hlife (.inr hfree)
  have hoff := (hlife.placed t).off (by rw [hpc]; rintro ⟨⟩)
  refine ⟨_, hnode, ?_⟩
  rw [refInc_found, hlife.held]
  exact h.turn w.fsSem hlife hnode (turns_got hlinks hoff.1) rfl
    (locked_same h.locked (by rw [hpc]; exact id) id)
    (fun m _ => by rw [hpc]; rintro ⟨⟩)
    (fun _ _ h => by cases h) (fun _ h => by cases h)

theorem Sound.refInc (h : Sound w) (hpc : w.pc t = .idle) (hheld : 0 < w.held n) :
    ∃ node, w.nodes n = some node
      ∧ Sound (w.setNode n (refInc node false) (w.held n + 1) [.got]) := by
  obtain ⟨life, hlife⟩ := h.nodes n
  obtain ⟨node, hnode⟩ := hlife.exists_node hheld
  obtain ⟨i, refs, waiting, flusher, nlinks, rfl, rfl, hlinks⟩ := hlife.cached hnode
  rw [hlife.held] at hheld
  have hpos : 0 < refs := hheld
  obtain rfl := h.no_flusher hlife (.inl hpos)
  have hoff := (hlife.placed t).off (by rw [hpc]; rintro ⟨⟩)
  refine ⟨_, hnode, ?_⟩
  rw [refInc_kept _ _ hpos, hlife.held]
  have hturned := h.turn w.fsSem hlife hnode (turns_got hlinks hoff.1) rfl
    (locked_same h.locked (by rw [hpc]; exact id) id)
    (fun m _ => by rw [hpc]; rintro ⟨⟩)
    (fun _ _ h => by cases h) (fun _ h => by cases h)
  have hstay : Function.update w.pc t .idle = w.pc := by
    rw [← hpc]
    exact Function.update_eq_self t w.pc
  simp only [World.goto, World.setNode, hstay] at hturned
  exact hturned

theorem nodeWith_dropped (ino refs count nlinks : Nat) :
    (nodeWith ino (refs + 1) count nlinks).dropped = nodeWith ino refs count nlinks := by
  simp only [Node.dropped, nodeWith, Node.mk.injEq, true_and, and_true]
  omega

theorem Sound.refDec (h : Sound w) (hpc : w.pc t = .idle) (hheld : 0 < w.held n) :
    ∃ node, w.nodes n = some node
      ∧ ∃ w', refDec w t n node = .ok w' ∧ Sound w' := by
  obtain ⟨life, hlife⟩ := h.nodes n
  obtain ⟨node, hnode⟩ := hlife.exists_node hheld
  obtain ⟨i, refs, waiting, flusher, nlinks, rfl, rfl, hlinks⟩ := hlife.cached hnode
  rw [hlife.held] at hheld
  have hpos : 0 < refs := hheld
  obtain rfl := h.no_flusher hlife (.inl hpos)
  have hoff := (hlife.placed t).off (by rw [hpc]; rintro ⟨⟩)
  have hlocks : ¬ (w.pc t).Locks := by
    rw [hpc]
    exact id
  have hbefore : ∀ m ≠ n, (w.pc t).node ≠ some m := fun m _ => by
    rw [hpc]
    rintro ⟨⟩
  refine ⟨_, hnode, ?_⟩
  cases refs with
  | zero => cases hpos
  | succ refs =>
      have hcount : (0 : Int) < (nodeWith i (refs + 1)
          (waiting.card + if 0 < refs + 1 then 1 else 0) nlinks).refCount :=
        Int.natCast_pos.mpr hpos
      rw [Cache.refDec, if_pos hcount, nodeWith_dropped, hlife.held]
      cases refs with
      | zero =>
          exact ⟨_, rfl, h.turn w.fsSem hlife hnode (turns_last hlinks hoff.1) rfl
            (locked_same h.locked hlocks id) hbefore
            (fun m hm heq => hm (Option.some.inj heq).symm)
            fun _ h => by cases h⟩
      | succ refs =>
          exact ⟨_, rfl, h.turn w.fsSem hlife hnode (turns_dropped hlinks hoff.1) rfl
            (locked_same h.locked hlocks id) hbefore
            (fun _ _ h => by cases h) fun _ h => by cases h⟩

/-- The count without the thread. -/
theorem nodeWith_less {waiting : Finset θ} (hmem : t ∈ waiting) (ino refs nlinks : Nat) :
    (nodeWith ino refs (waiting.card + if 0 < refs then 1 else 0) nlinks).less
      = nodeWith ino refs ((waiting.erase t).card + if 0 < refs then 1 else 0)
          nlinks := by
  have hcard := Finset.card_erase_add_one hmem
  simp only [Node.less, nodeWith, Node.mk.injEq, true_and, and_true]
  omega

theorem Sound.reclaimLocked (h : Sound w) (hpc : w.pc t = .reclaiming n)
    (hfree : w.fsSem = none) : ∃ w', reclaimLocked w t n = .ok w' ∧ Sound w' := by
  obtain ⟨life, hlife⟩ := h.nodes n
  have hmem := (hlife.placed t).reclaiming.mp hpc
  cases hnode : w.nodes n with
  | none =>
      obtain rfl := hlife.absent hnode
      exact absurd hmem (Finset.notMem_empty t)
  | some node =>
      obtain ⟨i, refs, waiting, flusher, nlinks, rfl, rfl, hlinks⟩ := hlife.cached hnode
      obtain rfl := h.no_flusher hlife (.inr hfree)
      replace hmem : t ∈ waiting := hmem
      have hcard : (waiting.erase t).card + 1 = waiting.card :=
        Finset.card_erase_add_one hmem
      have hlocks : ¬ (w.pc t).Locks := by
        rw [hpc]
        exact id
      have hbefore : ∀ m ≠ n, (w.pc t).node ≠ some m := fun m hm => by
        rw [hpc]
        exact fun heq => hm (Option.some.inj heq).symm
      have hcount : (0 : Int) < (nodeWith i refs
          (waiting.card + if 0 < refs then 1 else 0) nlinks).reclaimCount := by
        show (0 : Int) < ((waiting.card + if 0 < refs then 1 else 0 : Nat) : Int)
        omega
      simp only [Cache.reclaimLocked, hnode]
      rw [if_pos hcount, nodeWith_less hmem, hlife.held]
      by_cases hlast : refs = 0 ∧ waiting.erase t = ∅
      · obtain ⟨rfl, hempty⟩ := hlast
        have hidle : ¬ ((nodeWith i 0 ((waiting.erase t).card + if 0 < 0 then 1 else 0)
            nlinks).reclaimCount ≠ 0 ∨ ((0 : Nat) : Int) ≠ 0) := by
          rw [hempty]
          exact fun hbusy => hbusy.elim (fun hne => hne rfl) fun hne => hne rfl
        refine ⟨_, (if_neg hidle).trans (if_neg hlinks), ?_⟩
        rw [hempty]
        exact h.turn (some t) hlife hnode (turns_chosen hlinks hempty) rfl
          (locked_taken h.locked hfree trivial) hbefore
          (fun m hm heq => hm (Option.some.inj heq).symm)
          fun _ h => by cases h
      · have hleft : refs = 0 → (waiting.erase t).Nonempty := fun hzero =>
          Finset.nonempty_iff_ne_empty.mpr fun hempty => hlast ⟨hzero, hempty⟩
        have hbusy : (nodeWith i refs ((waiting.erase t).card + if 0 < refs then 1 else 0)
            nlinks).reclaimCount ≠ 0 ∨ ((refs : Nat) : Int) ≠ 0 := by
          rcases Nat.eq_zero_or_pos refs with hzero | hpos
          · have hcard := Finset.card_pos.mpr (hleft hzero)
            refine .inl (Int.natCast_ne_zero.mpr ?_)
            omega
          · exact .inr (Int.natCast_ne_zero.mpr (Nat.ne_of_gt hpos))
        exact ⟨_, if_pos hbusy, h.turn w.fsSem hlife hnode (turns_spared hlinks hleft) rfl
          (locked_same h.locked hlocks id) hbefore
          (fun _ _ h => by cases h) fun _ h => by cases h⟩

/-- The inode that a thread is freeing. -/
theorem Sound.flusher (h : Sound w) (hpc : w.pc t = .flushing n) :
    ∃ node, w.nodes n = some node ∧ node.refCount = 0
      ∧ NodeSound w n (.cached node.ino 0 ∅ (some t)) := by
  obtain ⟨life, hlife⟩ := h.nodes n
  have hflusher := (hlife.placed t).flushing.mp hpc
  cases hnode : w.nodes n with
  | none =>
      obtain rfl := hlife.absent hnode
      cases hflusher
  | some node =>
      obtain ⟨i, refs, waiting, flusher, nlinks, rfl, rfl, hlinks⟩ := hlife.cached hnode
      obtain rfl : flusher = some t := hflusher
      obtain ⟨rfl, rfl⟩ := hlife.due.2 rfl
      exact ⟨_, rfl, rfl, hlife⟩

theorem Sound.flushed (h : Sound w) (hpc : w.pc t = .flushing n) :
    ∃ w', reclaimFlushed w t n = .ok w' ∧ Sound w' := by
  obtain ⟨node, hnode, hrefs, hlife⟩ := h.flusher hpc
  simp only [reclaimFlushed, hnode]
  rw [if_pos hrefs]
  have hino : w.inoAt n = some node.ino := by rw [World.inoAt, hnode, Option.map_some]
  have hlocks : (w.pc t).Locks := by
    rw [hpc]
    trivial
  have hlocked : ∀ u, none = some u ↔ (Function.update w.pc t .idle u).Locks :=
    locked_left h.locked hlocks id
  refine ⟨_, rfl, fun m => ?_, (h.indexed.kill hino).congr (fun _ => rfl) rfl rfl,
    hlocked, fun u i hu m => ?_⟩
  · rcases eq_or_ne m n with rfl | hm
    · exact ⟨.absent, hlife.turned rfl (Function.update_self _ _ _)
        (Function.update_self _ _ _) hlife.held turns_freed⟩
    · obtain ⟨other, hother⟩ := h.nodes m
      refine ⟨other, hother.elsewhere rfl (Function.update_of_ne hm _ _) rfl
        (Function.update_of_ne hm _ _) ?_ (fun h => by cases h)⟩
      rw [hpc]
      exact fun heq => hm (Option.some.inj heq).symm
  · change Function.update w.pc t .idle u = _ at hu
    rcases eq_or_ne u t with rfl | hne
    · rw [Function.update_self] at hu
      cases hu
    · rw [Function.update_of_ne hne] at hu
      intro heq
      change (kill w n node.ino).inoAt m = some i at heq
      rw [inoAt_kill] at heq
      split at heq
      case isTrue => cases heq
      case isFalse => exact h.missing u i hu m heq

/-- Only one thread is reading. -/
theorem Sound.reader (h : Sound w) {i : Nat} (hpc : w.pc t = .reading ino)
    (hu : w.pc u = .reading i) : u = t := by
  have ht := (h.locked t).mpr (by rw [hpc]; trivial)
  have hu := (h.locked u).mpr (by rw [hu]; trivial)
  exact Option.some.inj (hu.symm.trans ht)

theorem Sound.loadRead {memory : Option Nat} (h : Sound w) (hpc : w.pc t = .reading ino)
    (nlinks : Nat) (hmemory : ∀ n ∈ memory, (w.nodes n).isNone) :
    Ending (loadRead w t ino nlinks memory) := by
  have hlocks : (w.pc t).Locks := by
    rw [hpc]
    trivial
  unfold Cache.loadRead
  by_cases hlinks : nlinks = 0
  · rw [if_pos hlinks]
    exact .inr rfl
  rw [if_neg hlinks]
  cases memory with
  | none =>
      exact h.goto none (by rw [hpc]; rfl) rfl (locked_left h.locked hlocks id)
        (fun _ h => by cases h)
  | some n =>
      have hnode : w.nodes n = none := Option.isNone_iff_eq_none.mp (hmemory n rfl)
      have hcreated := h.indexed.create nlinks hnode (h.missing t ino hpc)
      have hlocked : ∀ u, none = some u ↔ (Function.update w.pc t .idle u).Locks :=
        locked_left h.locked hlocks id
      refine ⟨fun m => ?_, hcreated.congr (fun _ => rfl) rfl rfl, hlocked,
        fun u i hu m => ?_⟩
      · obtain ⟨life, hlife⟩ := h.nodes m
        rcases eq_or_ne m n with rfl | hm
        · obtain rfl := hlife.absent hnode
          exact ⟨_, hlife.turned rfl (Function.update_self _ _ _)
            (Function.update_self _ _ _) (Function.update_self _ _ _)
            (turns_created hlinks)⟩
        · exact ⟨life, hlife.elsewhere rfl (Function.update_of_ne hm _ _)
            (Function.update_of_ne hm _ _) (Function.update_of_ne hm _ _)
            (by rw [hpc]; rintro ⟨⟩) (by rintro ⟨⟩)⟩
      · -- no other thread is reading
        change Function.update w.pc t .idle u = _ at hu
        rcases eq_or_ne u t with rfl | hne
        · rw [Function.update_self] at hu
          cases hu
        · rw [Function.update_of_ne hne] at hu
          exact absurd (h.reader hpc hu) hne

theorem Sound.loadLocked (h : Sound w) (hpc : w.pc t = .loading ino)
    (hfree : w.fsSem = none) (memory inuse : Bool) :
    Ending (loadLocked w t ino memory inuse) := by
  have hlocks : ¬ (w.pc t).Locks := by
    rw [hpc]
    exact id
  rw [Cache.loadLocked]
  cases hfind : find w ino with
  | some n =>
      obtain ⟨node, hnode, hsound⟩ := h.load_found hpc hfree hfind
      simp only [hnode]
      exact hsound
  | none =>
      cases memory with
      | false =>
          exact h.goto w.fsSem (by rw [hpc]; rfl) rfl (locked_same h.locked hlocks id)
            (fun _ h => by cases h)
      | true =>
          cases inuse with
          | false => exact .inl rfl
          | true =>
              refine h.goto (some t) (by rw [hpc]; rfl) rfl
                (locked_taken h.locked hfree trivial) fun i hi => ?_
              cases hi
              exact h.indexed.find_none hfind

-- ========================================================= any order

omit [DecidableEq θ] in
theorem ending_of_ok {r : Except Stop (World θ)}
    (h : ∃ w', r = .ok w' ∧ Sound w') : Ending r := by
  obtain ⟨w', rfl, hsound⟩ := h
  exact hsound

/-- An action keeps the file system sound. -/
theorem Sound.step (h : Sound w) (t : θ) (a : Action) : Ending (step w t a) := by
  cases a with
  | load ino =>
      simp only [Cache.step]
      by_cases hpc : w.pc t = .idle
      · rw [if_pos hpc]
        exact h.goto w.fsSem (by rw [hpc]; rfl) rfl
          (locked_same h.locked (by rw [hpc]; exact id) id) (fun _ h => by cases h)
      · rw [if_neg hpc]
        exact h
  | loadLocked memory inuse =>
      simp only [Cache.step]
      split
      case h_1 ino hpc hfree => exact h.loadLocked hpc hfree memory inuse
      case h_2 => exact h
  | read nlinks memory =>
      simp only [Cache.step]
      split
      case h_1 ino hpc =>
        split
        case isTrue hmemory => exact h.loadRead hpc nlinks hmemory
        case isFalse => exact h
      case h_2 => exact h
  | refInc n =>
      simp only [Cache.step]
      by_cases hheld : w.pc t = .idle ∧ 0 < w.held n
      · rw [if_pos hheld]
        obtain ⟨node, hnode, hsound⟩ := h.refInc hheld.1 hheld.2
        simp only [hnode]
        exact hsound
      · rw [if_neg hheld]
        exact h
  | refDec n =>
      simp only [Cache.step]
      by_cases hheld : w.pc t = .idle ∧ 0 < w.held n
      · rw [if_pos hheld]
        obtain ⟨node, hnode, hok⟩ := h.refDec hheld.1 hheld.2
        simp only [hnode]
        exact ending_of_ok hok
      · rw [if_neg hheld]
        exact h
  | reclaimLocked =>
      simp only [Cache.step]
      split
      case h_1 n hpc hfree => exact ending_of_ok (h.reclaimLocked hpc hfree)
      case h_2 => exact h
  | flushed =>
      simp only [Cache.step]
      split
      case h_1 n hpc => exact ending_of_ok (h.flushed hpc)
      case h_2 => exact h

omit [DecidableEq θ] in
theorem start_sound : Sound (start : World θ) where
  nodes n := ⟨.absent, rfl, rfl, rfl, trivial, fun t =>
    placed_off (fun h => by cases h) (Finset.notMem_empty t) (fun h => by cases h)⟩
  indexed := by
    refine ⟨List.nodup_nil, fun n => iff_of_false List.not_mem_nil
      (fun h => by cases h),
      fun _ => List.nodup_nil, fun b n => iff_of_false List.not_mem_nil fun hsome => ?_,
      fun _ _ _ hino => ?_⟩
    · obtain ⟨ino, hino, -⟩ := hsome
      cases hino
    · cases hino
  locked t := iff_of_false (fun h => by cases h) id
  missing _ _ := fun h => by cases h

theorem Sound.execAll (acts : List (θ × Action)) (h : Sound w) :
    Ending (execAll w acts) := by
  induction acts generalizing w with
  | nil => exact h
  | cons act acts ih =>
      have hstep := h.step act.1 act.2
      show Ending ((Cache.step w act.1 act.2).bind _)
      cases hr : Cache.step w act.1 act.2 with
      | error stop =>
          rw [hr] at hstep
          exact hstep
      | ok w' =>
          rw [hr] at hstep
          exact ih hstep

/-- When no thread is in a call, the inodes in memory are those with references,
with their counts settled. -/
theorem idle_settled {acts : List (θ × Action)} {w : World θ}
    (hrun : Cache.execAll start acts = .ok w) (hidle : ∀ t, w.pc t = .idle)
    (n : Nat) : (w.nodes n = none ∧ w.held n = 0)
      ∨ ∃ node, w.nodes n = some node ∧ 0 < w.held n
        ∧ node.refCount = w.held n ∧ node.reclaimCount = 1 := by
  have hsound : Ending (Cache.execAll start acts) := start_sound.execAll acts
  rw [hrun] at hsound
  obtain ⟨life, hlife⟩ := Sound.nodes hsound n
  cases life with
  | absent => exact Or.inl ⟨hlife.reads, hlife.held⟩
  | cached ino refs waiting flusher =>
      obtain ⟨nlinks, -, hnode⟩ := hlife.reads
      have hwaiting : waiting = ∅ := by
        refine Finset.eq_empty_of_forall_notMem fun t ht => ?_
        have hpc := (hlife.placed t).reclaiming.mpr ht
        rw [hidle t] at hpc
        cases hpc
      have hpos : 0 < refs := by
        by_contra hzero
        rcases hlife.due.1 (Nat.eq_zero_of_not_pos hzero) with ⟨t, ht⟩ | hflusher
        · rw [hwaiting] at ht
          cases ht
        · obtain ⟨t, rfl⟩ := Option.isSome_iff_exists.mp hflusher
          have hpc := (hlife.placed t).flushing.mpr rfl
          rw [hidle t] at hpc
          cases hpc
      rw [hwaiting, if_pos hpos] at hnode
      have hheld : w.held n = refs := hlife.held
      rw [hheld]
      exact Or.inr ⟨_, hnode, hpos, rfl, rfl⟩

/-- An inode that is loaded, referenced again and dropped. -/
theorem idle_settled_loaded : ∃ (w : World Unit) (node : Node),
    Cache.execAll start [((), .load 5), ((), .loadLocked true true),
      ((), .read 1 (some 3)), ((), .refInc 3), ((), .refDec 3)] = .ok w
    ∧ w.nodes 3 = some node ∧ node.refCount = w.held 3
    ∧ node.reclaimCount = 1 := by
  obtain ⟨w, hrun, hidle, hheld⟩ : ∃ w : World Unit,
      Cache.execAll start [((), .load 5), ((), .loadLocked true true),
        ((), .read 1 (some 3)), ((), .refInc 3), ((), .refDec 3)] = .ok w
      ∧ (∀ t, w.pc t = .idle) ∧ w.held 3 = 1 := ⟨_, rfl, fun _ => rfl, rfl⟩
  rcases idle_settled hrun hidle 3 with ⟨-, hzero⟩ | ⟨node, hnode, -, hrefs, hcount⟩
  · omega
  · exact ⟨w, node, hrun, hnode, hrefs, hcount⟩

end Ucore.Sfs.Cache
