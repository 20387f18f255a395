/-
Whatever the order in which threads open, close, duplicate and operate on the
entries of a `files_struct`, the life of every entry goes on and no assertion
fails (`fd_lifecycle`).

What a call does to a world is said once (`Changed`): one entry, where one
thread is, and what the log says of the entry. The other entries do not notice
(`EntrySound.elsewhere`), and of the entry it is left to see that its life
takes the events and puts the threads where they are (`Sound.changed`).
-/
import Ucore.Vfs.Shared

namespace Ucore.Vfs.Shared

variable {θ : Type} {w w' w'' : World θ} {t u : θ} {j k : Nat} {file file' : File}
  {pc pc' : Pc} {es es' : List (Event θ)} {life life' : Life θ}

-- ====================================================== what is read

theorem setFile_self (w : World θ) (k : Nat) (file : File) :
    (w.setFile k file).fdArray k = file := by
  show Function.update w.fdArray k file k = file
  exact Function.update_self k file w.fdArray

theorem fd2file_ok {fd : Int} (h : fd2file w fd = .ok k) :
    (w.fdArray k).status = .opened := by
  rw [fd2file] at h
  split at h
  case isTrue hopen =>
    cases h
    exact hopen.2.1
  case isFalse => cases h

theorem pick_ok {fd : Int} (h : pick w fd = .ok k) :
    (w.fdArray k).status = .none := by
  rw [pick] at h
  split at h
  case isTrue =>
    split at h
    case h_1 i hfind =>
      cases h
      exact of_decide_eq_true
        (List.find?_some (p := fun k => decide ((w.fdArray k).status = .none)) hfind)
    case h_2 => cases h
  case isFalse =>
    split at h
    case isTrue =>
      split at h
      case isTrue hnone =>
        cases h
        exact hnone
      case isFalse => cases h
    case isFalse => cases h

-- ================================================= where a thread is

/-- The entry of a call. -/
def Pc.entry : Pc → Option Nat
  | .idle => none
  | .opening k => some k
  | .holding k => some k
  | .closing k => some k

/-- Where a thread is matters to the entry of its call only. -/
theorem placed_elsewhere (h : ∀ i ∈ pc.entry, i = k) (h' : ∀ i ∈ pc'.entry, i = k)
    (hj : j ≠ k) (hplaced : Placed pc j t life) : Placed pc' j t life := by
  have hne : ∀ {pc : Pc}, (∀ i ∈ pc.entry, i = k) →
      pc ≠ .opening j ∧ pc ≠ .holding j ∧ pc ≠ .closing j := by
    intro pc h
    refine ⟨?_, ?_, ?_⟩
    all_goals
      intro hpc
      exact hj (h j (by rw [hpc]; rfl))
  obtain ⟨hopening, hholding, hclosing⟩ := hne h
  obtain ⟨hopening', hholding', hclosing'⟩ := hne h'
  exact ⟨(iff_of_false hopening' hopening).trans hplaced.opening,
    (iff_of_false hholding' hholding).trans hplaced.holding,
    (iff_of_false hclosing' hclosing).trans hplaced.closing⟩

/-- A thread outside of calls is in no life. -/
theorem placed_idle (k : Nat) (hopening : life ≠ .opening t)
    (hholders : t ∉ life.holders) (hclosing : life ≠ .closing t) : Placed .idle k t life :=
  ⟨iff_of_false (fun h => by cases h) hopening,
  iff_of_false (fun h => by cases h) hholders,
    iff_of_false (fun h => by cases h) hclosing⟩

theorem Placed.congr (h : Placed pc k u life)
    (hopening : life' = .opening u ↔ life = .opening u)
    (hholders : u ∈ life'.holders ↔ u ∈ life.holders)
    (hclosing : life' = .closing u ↔ life = .closing u) : Placed pc k u life' :=
  ⟨h.opening.trans hopening.symm, h.holding.trans hholders.symm,
    h.closing.trans hclosing.symm⟩

-- ====================================================== what changes

variable [DecidableEq θ]

/-- What a call changes: an entry, where its thread is, and the log of the
entry. -/
structure Changed (w w' : World θ) (t : θ) (k : Nat) (file : File) (pc : Pc)
    (es : List (Event θ)) : Prop where
  fdArray : w'.fdArray = Function.update w.fdArray k file
  pc : w'.pc = Function.update w.pc t pc
  log : w'.log = Function.update w.log k (w.log k ++ es)

theorem Changed.trans (h : Changed w w' t k file pc es)
    (h' : Changed w' w'' t k file' pc' es') :
    Changed w w'' t k file' pc' (es ++ es') where
  fdArray := by rw [h'.fdArray, h.fdArray, Function.update_idem]
  pc := by rw [h'.pc, h.pc, Function.update_idem]
  log := by
    rw [h'.log, h.log, Function.update_idem, Function.update_self, List.append_assoc]

theorem Changed.entry (h : Changed w w' t k file pc es) : w'.fdArray k = file := by
  rw [h.fdArray, Function.update_self]

theorem Changed.thread (h : Changed w w' t k file pc es) : w'.pc t = pc := by
  rw [h.pc, Function.update_self]

/-- Without going elsewhere. -/
theorem changed_note (w : World θ) (t : θ) (k : Nat) (file : File)
    (e : Event θ) :
    Changed w ((w.setFile k file).note k e) t k file (w.pc t) [e] where
  fdArray := rfl
  pc := (Function.update_eq_self t w.pc).symm
  log := rfl

theorem changed_goto (w : World θ) (t : θ) (k : Nat) (file : File) (pc : Pc)
    (e : Event θ) :
    Changed w (((w.setFile k file).goto t pc).note k e) t k file pc [e] where
  fdArray := rfl
  pc := rfl
  log := rfl

theorem EntrySound.elsewhere (h : EntrySound w j life)
    (hchanged : Changed w w' t k file pc es) (hbefore : ∀ i ∈ (w.pc t).entry, i = k)
    (hafter : ∀ i ∈ pc.entry, i = k) (hj : j ≠ k) : EntrySound w' j life := by
  have hfile : w'.fdArray j = w.fdArray j := by
    rw [hchanged.fdArray, Function.update_of_ne hj]
  refine ⟨?_, hfile ▸ h.status, hfile ▸ h.count, hfile ▸ h.node, fun u => ?_⟩
  · rw [hchanged.log, Function.update_of_ne hj]
    exact h.lived
  · rw [hchanged.pc]
    rcases eq_or_ne u t with rfl | hu
    · rw [Function.update_self]
      exact placed_elsewhere hbefore hafter hj (h.placed u)
    · rw [Function.update_of_ne hu]
      exact h.placed u

/-- A step of the life of an entry. -/
structure Turns (t : θ) (k : Nat) (life : Life θ) (file : File) (pc : Pc)
    (es : List (Event θ)) (life' : Life θ) : Prop where
  accepted : accepts Life.accept life es = some life'
  status : file.status = life'.status
  count : file.openCount = life'.count
  node : ∀ node, life'.node = some node → file.node = some node
  self : Placed pc k t life'
  others : ∀ u ≠ t, ∀ pc, Placed pc k u life → Placed pc k u life'

theorem EntrySound.turned (h : EntrySound w k life)
    (hchanged : Changed w w' t k file pc es)
    (hturns : Turns t k life file pc es life') : EntrySound w' k life' := by
  have hfile := hchanged.entry
  refine ⟨?_, hfile ▸ hturns.status, hfile ▸ hturns.count, hfile ▸ hturns.node,
    fun u => ?_⟩
  · rw [hchanged.log, Function.update_self, accepts_append, h.lived]
    exact hturns.accepted
  · rw [hchanged.pc]
    rcases eq_or_ne u t with rfl | hu
    · rw [Function.update_self]
      exact hturns.self
    · rw [Function.update_of_ne hu]
      exact hturns.others u hu _ (h.placed u)

theorem Sound.changed (h : Sound w) (hk : EntrySound w k life)
    (hchanged : Changed w w' t k file pc es)
    (hbefore : ∀ i ∈ (w.pc t).entry, i = k) (hafter : ∀ i ∈ pc.entry, i = k)
    (hturns : Turns t k life file pc es life') : Sound w' := by
  intro j
  rcases eq_or_ne j k with rfl | hj
  · exact ⟨life', hk.turned hchanged hturns⟩
  · obtain ⟨life, hlife⟩ := h j
    exact ⟨life, hlife.elsewhere hchanged hbefore hafter hj⟩

-- ============================================== the life of an entry

theorem EntrySound.free (h : EntrySound w k life)
    (hstatus : (w.fdArray k).status = .none) : life = .free := by
  rw [h.status] at hstatus
  match life, hstatus with
  | .free, _ => rfl

theorem EntrySound.opened (h : EntrySound w k life)
    (hstatus : (w.fdArray k).status = .opened) :
    ∃ node holders, life = .live node false holders := by
  rw [h.status] at hstatus
  match life, hstatus with
  | .live node false holders, _ => exact ⟨node, holders, rfl⟩

theorem EntrySound.live (h : EntrySound w k life) (ht : w.pc t = .holding k) :
    ∃ node requested holders, life = .live node requested holders ∧ t ∈ holders := by
  have hmem := (h.placed t).holding.mp ht
  match life, hmem with
  | .live node requested holders, hmem => exact ⟨node, requested, holders, rfl, hmem⟩
  | .free, hmem | .opening _, hmem | .closing _, hmem =>
      exact absurd hmem (Finset.notMem_empty t)

theorem turns_taken (hstatus : file.status = .init) (hcount : file.openCount = 0) :
    Turns t k .free file (.opening k) [.taken t] (.opening t) where
  accepted := rfl
  status := hstatus
  count := hcount
  node := fun _ h => by cases h
  self := ⟨by simp, by simp [Life.holders], by simp⟩
  others u hu pc h := h.congr (by simp [hu.symm]) Iff.rfl (by simp)

theorem turns_dropped (hstatus : file.status = .none) (hcount : file.openCount = 0) :
    Turns t k (.opening t) file .idle [.dropped] .free where
  accepted := rfl
  status := hstatus
  count := hcount
  node := fun _ h => by cases h
  self := placed_idle k (fun h => by cases h) (Finset.notMem_empty t)
    (fun h => by cases h)
  others u hu pc h := h.congr (by simp [hu.symm]) Iff.rfl (by simp)

theorem turns_opened {node : Inode} (hstatus : file.status = .opened)
    (hcount : file.openCount = 1) (hnode : file.node = some node) :
    Turns t k (.opening t) file .idle [.opened node] (.live node false ∅) where
  accepted := rfl
  status := hstatus
  count := hcount
  node n hn := hnode.trans hn
  self := placed_idle k (fun h => by cases h) (Finset.notMem_empty t)
    (fun h => by cases h)
  others u hu pc h := h.congr (by simp [hu.symm]) Iff.rfl (by simp)

section Live

variable {node : Inode} {requested : Bool} {holders : Finset θ}

theorem turns_acquired (ht : t ∉ holders) (hstatus : file.status = .opened)
    (hcount : file.openCount = holders.card + 1 + 1)
    (hnode : file.node = some node) :
    Turns t k (.live node false holders) file (.holding k) [.acquired t]
      (.live node false (insert t holders)) where
  accepted := by
    show (if t ∈ holders then none else _ : Option (Life θ)).bind _ = _
    rw [if_neg ht]
    rfl
  status := hstatus
  count := by
    rw [hcount]
    show _ = ((insert t holders).card : Int) + 1
    rw [Finset.card_insert_of_notMem ht]
    omega
  node n hn := hnode.trans hn
  self := ⟨by simp, by simp [Life.holders], by simp⟩
  others u hu pc h := h.congr (by simp) (by simp [Life.holders, hu]) (by simp)

theorem turns_released (ht : t ∈ holders)
    (hstatus : file.status = (Life.live node requested holders).status)
    (hcount : file.openCount = (Life.live node requested holders).count - 1)
    (hnode : file.node = some node) :
    Turns t k (.live node requested holders) file .idle [.released t]
      (.live node requested (holders.erase t)) where
  accepted := by
    cases requested
    all_goals
      show (if t ∈ holders then _ else none : Option (Life θ)).bind _ = _
      rw [if_pos ht]
      rfl
  status := by
    rw [hstatus]
    cases requested <;> rfl
  count := by
    rw [hcount]
    have hcard := Finset.card_erase_add_one ht
    simp only [Life.count]
    omega
  node n hn := hnode.trans hn
  self := placed_idle k (fun h => by cases h) (Finset.notMem_erase t holders)
    (fun h => by cases h)
  others u hu pc h := h.congr (by simp) (by simp [Life.holders, hu]) (by simp)

theorem turns_requested (ht : t ∉ holders) (hstatus : file.status = .closed)
    (hcount : file.openCount = holders.card) (hnode : file.node = some node) :
    Turns t k (.live node false holders) file .idle [.requested]
      (.live node true holders) where
  accepted := rfl
  status := hstatus
  count := hcount.trans (add_zero _).symm
  node n hn := hnode.trans hn
  self := placed_idle k (fun h => by cases h) ht (fun h => by cases h)
  others u hu pc h := h.congr (by simp) Iff.rfl (by simp)

theorem turns_closed (hstatus : file.status = .closed) (hcount : file.openCount = 0) :
    Turns t k (.live node true ∅) file (.closing k) [.closed t node]
      (.closing t) where
  accepted := by
    show (if node = node ∧ (∅ : Finset θ) = ∅ then _ else none :
      Option (Life θ)).bind _ = _
    rw [if_pos ⟨rfl, rfl⟩]
    rfl
  status := hstatus
  count := hcount
  node := fun _ h => by cases h
  self := ⟨by simp, by simp [Life.holders], by simp⟩
  others u hu pc h := h.congr (by simp) Iff.rfl (by simp [hu.symm])

end Live

theorem turns_left (hstatus : file.status = .none) (hcount : file.openCount = 0) :
    Turns t k (.closing t) file .idle [.left] .free where
  accepted := rfl
  status := hstatus
  count := hcount
  node := fun _ h => by cases h
  self := placed_idle k (fun h => by cases h) (Finset.notMem_empty t)
    (fun h => by cases h)
  others u hu pc h := h.congr (by simp) Iff.rfl (by simp [hu.symm])

/-- `dup` takes an entry and gives it an inode at once. -/
theorem turns_dup {node : Inode} (hstatus : file.status = .opened)
    (hcount : file.openCount = 1) (hnode : file.node = some node) :
    Turns t k .free file .idle [.taken t, .opened node] (.live node false ∅) where
  accepted := rfl
  status := hstatus
  count := hcount
  node n hn := hnode.trans hn
  self := placed_idle k (fun h => by cases h) (Finset.notMem_empty t)
    (fun h => by cases h)
  others u hu pc h := h.congr (by simp) Iff.rfl (by simp)

-- ========================================================= the calls

theorem fdArrayFound_changed (t : θ) (h : EntrySound w k .free) :
    ∃ w', fdArrayFound w t k = some w'
      ∧ Changed w w' t k { w.fdArray k with status := .init, node := none }
          (w.pc t) [.taken t] :=
  ⟨_, if_pos h.count, changed_note w t k _ _⟩

theorem fdArrayOpen_changed {node : Inode} (w : World θ) (t : θ) (k : Nat)
    (hnode : (w.fdArray k).node = some node) (hstatus : (w.fdArray k).status = .init) :
    ∃ w', fdArrayOpen w k = some w'
      ∧ Changed w w' t k
          { w.fdArray k with status := .opened, openCount := (w.fdArray k).openCount + 1 }
          (w.pc t) [.opened node] := by
  refine ⟨_, ?_, changed_note w t k _ _⟩
  simp only [fdArrayOpen, hnode]
  exact if_pos hstatus

/-- An inode that no one operates on any more and that is to be closed. -/
theorem Sound.freed {node : Inode} (h : Sound w)
    (hk : EntrySound w k (.live node true ∅)) (ht : w.pc t = .idle) :
    ∃ w', fdArrayFree w t k = some w' ∧ Sound w' := by
  have hstatus : (w.fdArray k).status = .closed := hk.status
  have hcount : (w.fdArray k).openCount = 0 := hk.count
  have hnode : (w.fdArray k).node = some node := hk.node node rfl
  have hchanged : Changed w ((w.goto t (.closing k)).note k (.closed t node)) t k
      (w.fdArray k) (.closing k) [.closed t node] :=
    ⟨(Function.update_eq_self k w.fdArray).symm, rfl, rfl⟩
  refine ⟨_, ?_, h.changed hk hchanged (by rw [ht]; rintro i ⟨⟩)
    (by rintro i ⟨⟩; rfl) (turns_closed hstatus hcount)⟩
  simp only [fdArrayFree, hnode]
  rw [if_pos ⟨.inr hstatus, hcount⟩, if_pos hstatus]

/-- The end of `fd_array_release` and of `fd_array_close`. -/
theorem Sound.freed_last {node : Inode} {requested : Bool} {holders : Finset θ}
    (h : Sound w) (hk : EntrySound w k (.live node requested holders))
    (ht : w.pc t = .idle) (hlast : (w.fdArray k).openCount = 0) :
    ∃ w', fdArrayFree w t k = some w' ∧ Sound w' := by
  have hcount := hk.count.symm.trans hlast
  simp only [Life.count] at hcount
  have hrequested : requested = true := by
    by_contra hnot
    rw [if_neg hnot] at hcount
    omega
  subst hrequested
  rw [if_pos rfl] at hcount
  obtain rfl : holders = ∅ := Finset.card_eq_zero.mp (by omega)
  exact h.freed hk ht

theorem Sound.openStart (h : Sound w) (ht : w.pc t = .idle) :
    ∃ w', step w t .openStart = some w' ∧ Sound w' := by
  simp only [step, if_pos ht]
  cases hpick : pick w noFd with
  | error e => exact ⟨w, rfl, h⟩
  | ok k =>
      obtain ⟨life, hk⟩ := h k
      obtain rfl := hk.free (pick_ok hpick)
      obtain ⟨w', hfound, hchanged⟩ := fdArrayFound_changed t hk
      have hgoto : Changed w (w'.goto t (.opening k)) t k _ (.opening k) [.taken t] :=
        ⟨hchanged.fdArray, by rw [World.goto, hchanged.pc, Function.update_idem],
          hchanged.log⟩
      refine ⟨w'.goto t (.opening k), by dsimp only; rw [hfound]; rfl, ?_⟩
      exact h.changed hk hgoto (by rw [ht]; rintro i ⟨⟩) (by rintro i ⟨⟩; rfl)
        (turns_taken rfl hk.count)

theorem Sound.openFail (h : Sound w) (ht : w.pc t = .opening k) :
    ∃ w', fdArrayFree w t k = some w' ∧ Sound w' := by
  obtain ⟨life, hk⟩ := h k
  obtain rfl := (hk.placed t).opening.mp ht
  have hstatus : (w.fdArray k).status = .init := hk.status
  refine ⟨_, ?_, h.changed hk
    (changed_goto w t k { w.fdArray k with status := .none } .idle .dropped)
    (by rw [ht]; rintro i ⟨⟩; rfl) (fun _ h => by cases h)
    (turns_dropped rfl hk.count)⟩
  simp only [fdArrayFree]
  rw [if_pos ⟨.inl hstatus, hk.count⟩, if_neg (by rw [hstatus]; rintro ⟨⟩)]

theorem Sound.openDone (h : Sound w) (ht : w.pc t = .opening k) (node : Inode)
    (pos : Int) (readable writable : Bool) :
    ∃ w', step w t (.openDone node pos readable writable) = some w' ∧ Sound w' := by
  obtain ⟨life, hk⟩ := h k
  obtain rfl := (hk.placed t).opening.mp ht
  simp only [step, ht]
  set file : File :=
    { w.fdArray k with pos, node := some node, readable, writable } with hfile
  have hset := setFile_self w k file
  have hnode : ((w.setFile k file).fdArray k).node = some node := by rw [hset]
  obtain ⟨w', hopen, hchanged⟩ := fdArrayOpen_changed (w.setFile k file) t k hnode
    (by rw [hset]; exact hk.status)
  have hgoto : Changed w (w'.goto t .idle) t k
      { file with status := .opened, openCount := file.openCount + 1 } .idle
      [.opened node] := by
    refine ⟨?_, ?_, hchanged.log⟩
    · rw [hset] at hchanged
      exact hchanged.fdArray.trans (Function.update_idem _ _ _)
    · rw [World.goto, hchanged.pc, Function.update_idem]
      rfl
  refine ⟨w'.goto t .idle, by rw [hopen]; rfl, ?_⟩
  exact h.changed hk hgoto (by rw [ht]; rintro i ⟨⟩; rfl) (fun _ h => by cases h)
    (turns_opened rfl (congrArg (· + 1) hk.count) rfl)

theorem Sound.acquire (h : Sound w) (ht : w.pc t = .idle)
    (hopen : (w.fdArray k).status = .opened) :
    ∃ w', fdArrayAcquire w t k = some w' ∧ Sound w' := by
  obtain ⟨life, hk⟩ := h k
  obtain ⟨node, holders, rfl⟩ := hk.opened hopen
  have hnotin : t ∉ holders := by
    intro hmem
    have hholding := (hk.placed t).holding.mpr hmem
    rw [ht] at hholding
    cases hholding
  refine ⟨_, if_pos hopen, h.changed hk (changed_goto w t k _ _ _)
    (by rw [ht]; rintro i ⟨⟩)
    (by rintro i ⟨⟩; rfl) (turns_acquired hnotin hopen ?_ (hk.node node rfl))⟩
  exact congrArg (· + 1) hk.count

theorem Sound.release (h : Sound w) (ht : w.pc t = .holding k) (pos : Int) :
    ∃ w', fdArrayRelease (w.setFile k { w.fdArray k with pos }) t k = some w'
      ∧ Sound w' := by
  obtain ⟨life, hk⟩ := h k
  obtain ⟨node, requested, holders, rfl, hmem⟩ := hk.live ht
  set file : File := { w.fdArray k with pos } with hfile
  have hset := setFile_self w k file
  have hstatus : file.status = .opened ∨ file.status = .closed := by
    have hlife : file.status = _ := hk.status
    rw [hlife]
    cases requested
    · exact .inl rfl
    · exact .inr rfl
  have hcount : file.openCount = _ := hk.count
  have hpos : 0 < file.openCount := by
    have hcard := Finset.card_pos.mpr ⟨t, hmem⟩
    rw [hcount]
    simp only [Life.count]
    split <;> omega
  have hchanged : Changed w ((((w.setFile k file).setFile k
      { file with openCount := file.openCount - 1 }).goto t .idle).note k (.released t))
      t k { file with openCount := file.openCount - 1 } .idle [.released t] :=
    ⟨Function.update_idem _ _ _, rfl, rfl⟩
  have hturns : Turns t k (.live node requested holders)
      { file with openCount := file.openCount - 1 } .idle [.released t] _ :=
    turns_released hmem hk.status (congrArg (· - 1) hcount) (hk.node node rfl)
  have hsound := h.changed hk hchanged (by rw [ht]; rintro i ⟨⟩; rfl)
    (fun _ h => by cases h) hturns
  have hk' := hk.turned hchanged hturns
  simp only [fdArrayRelease, hset]
  rw [if_pos ⟨hstatus, hpos⟩]
  split
  case isTrue hlast =>
    exact hsound.freed_last hk' hchanged.thread (by rw [hchanged.entry]; exact hlast)
  case isFalse => exact ⟨_, rfl, hsound⟩

theorem Sound.close (h : Sound w) (ht : w.pc t = .idle)
    (hopen : (w.fdArray k).status = .opened) :
    ∃ w', fdArrayClose w t k = some w' ∧ Sound w' := by
  obtain ⟨life, hk⟩ := h k
  obtain ⟨node, holders, rfl⟩ := hk.opened hopen
  have hnotin : t ∉ holders := by
    intro hmem
    have hholding := (hk.placed t).holding.mpr hmem
    rw [ht] at hholding
    cases hholding
  have hcount : (w.fdArray k).openCount = holders.card + 1 := hk.count
  have hchanged := changed_note w t k { w.fdArray k with
    status := .closed, openCount := (w.fdArray k).openCount - 1 } .requested
  rw [ht] at hchanged
  have hturns : Turns t k (.live node false holders) { w.fdArray k with
      status := .closed, openCount := (w.fdArray k).openCount - 1 } .idle [.requested]
      _ :=
    turns_requested hnotin rfl (by show (w.fdArray k).openCount - 1 = _; omega)
      (hk.node node rfl)
  have hsound := h.changed hk hchanged (by rw [ht]; rintro i ⟨⟩)
    (by rintro i ⟨⟩) hturns
  have hk' := hk.turned hchanged hturns
  simp only [fdArrayClose]
  rw [if_pos ⟨hopen, by omega⟩]
  split
  case isTrue hlast =>
    exact hsound.freed_last hk' hchanged.thread (by rw [hchanged.entry]; exact hlast)
  case isFalse => exact ⟨_, rfl, hsound⟩

theorem Sound.closed (h : Sound w) (ht : w.pc t = .closing k) :
    Sound (((w.setFile k { w.fdArray k with status := .none }).goto t .idle).note k
      .left) := by
  obtain ⟨life, hk⟩ := h k
  obtain rfl := (hk.placed t).closing.mp ht
  exact h.changed hk (changed_goto w t k _ _ _) (by rw [ht]; rintro i ⟨⟩; rfl)
    (fun _ h => by cases h)
    (turns_left rfl hk.count)

theorem Sound.dup (h : Sound w) (ht : w.pc t = .idle)
    (hopen : (w.fdArray j).status = .opened) (hnone : (w.fdArray k).status = .none) :
    ∃ w', ((fdArrayFound w t k).bind fun w => fdArrayDup w k j) = some w'
      ∧ Sound w' := by
  obtain ⟨life, hk⟩ := h k
  obtain rfl := hk.free hnone
  obtain ⟨life, hj⟩ := h j
  obtain ⟨node, holders, rfl⟩ := hj.opened hopen
  have hne : j ≠ k := by
    rintro rfl
    rw [hopen] at hnone
    cases hnone
  obtain ⟨w1, hfound, hchanged⟩ := fdArrayFound_changed t hk
  have hsource : w1.fdArray j = w.fdArray j := by
    rw [hchanged.fdArray, Function.update_of_ne hne]
  have hentry := hchanged.entry
  set file : File := { w1.fdArray k with
    pos := (w1.fdArray j).pos, readable := (w1.fdArray j).readable
    writable := (w1.fdArray j).writable, node := some node } with hfile
  have hset := setFile_self w1 k file
  have hinit : file.status = .init := by
    show (w1.fdArray k).status = _
    rw [hentry]
  have hgiven : ((w1.setFile k file).fdArray k).node = some node := by rw [hset]
  obtain ⟨w2, hdup, hopened⟩ := fdArrayOpen_changed (w1.setFile k file) t k hgiven
    (by rw [hset, hinit])
  have hpc : w1.pc t = .idle := hchanged.thread.trans ht
  have hwhole : Changed w w2 t k
      { file with status := .opened, openCount := file.openCount + 1 } .idle
      [.taken t, .opened node] := by
    rw [hset] at hopened
    have hrest : Changed w1 w2 t k
        { file with status := .opened, openCount := file.openCount + 1 } .idle
        [.opened node] := by
      refine ⟨?_, ?_, hopened.log⟩
      · exact hopened.fdArray.trans (Function.update_idem _ _ _)
      · rw [← hpc]
        exact hopened.pc
    exact hchanged.trans hrest
  have hcount : file.openCount = 0 := by
    show (w1.fdArray k).openCount = 0
    rw [hentry]
    exact hk.count
  refine ⟨w2, ?_, h.changed hk hwhole (by rw [ht]; rintro i ⟨⟩)
    (by rintro i ⟨⟩) (turns_dup rfl (congrArg (· + 1) hcount) rfl)⟩
  rw [hfound]
  show fdArrayDup w1 k j = some w2
  have hnode : (w1.fdArray j).node = some node := by
    rw [hsource]
    exact hj.node node rfl
  simp only [fdArrayDup, hnode]
  rw [if_pos ⟨by rw [hentry], by rw [hsource, hopen]⟩]
  exact hdup

-- ========================================================= any order

/-- An action keeps the entries sound, and fails no assertion. -/
theorem Sound.step (h : Sound w) (t : θ) (a : Action) :
    ∃ w', step w t a = some w' ∧ Sound w' := by
  cases a with
  | openStart =>
      by_cases ht : w.pc t = .idle
      · exact h.openStart ht
      · exact ⟨w, if_neg ht, h⟩
  | openFail =>
      cases ht : w.pc t with
      | opening k =>
          simp only [Shared.step, ht]
          exact h.openFail ht
      | idle | holding _ | closing _ => exact ⟨w, by simp only [Shared.step, ht], h⟩
  | openDone node pos readable writable =>
      cases ht : w.pc t with
      | opening k => exact h.openDone ht node pos readable writable
      | idle | holding _ | closing _ => exact ⟨w, by simp only [Shared.step, ht], h⟩
  | acquire fd read write =>
      by_cases ht : w.pc t = .idle
      · simp only [Shared.step, if_pos ht]
        cases hfd : fd2file w fd with
        | error e => exact ⟨w, rfl, h⟩
        | ok k =>
            dsimp only
            split
            case isTrue => exact ⟨w, rfl, h⟩
            case isFalse => exact h.acquire ht (fd2file_ok hfd)
      · exact ⟨w, if_neg ht, h⟩
  | release pos seek =>
      cases ht : w.pc t with
      | holding k =>
          simp only [Shared.step, ht]
          exact h.release ht _
      | idle | opening _ | closing _ => exact ⟨w, by simp only [Shared.step, ht], h⟩
  | close fd =>
      by_cases ht : w.pc t = .idle
      · simp only [Shared.step, if_pos ht]
        cases hfd : fd2file w fd with
        | error e => exact ⟨w, rfl, h⟩
        | ok k => exact h.close ht (fd2file_ok hfd)
      · exact ⟨w, if_neg ht, h⟩
  | closed =>
      cases ht : w.pc t with
      | closing k =>
          simp only [Shared.step, ht]
          exact ⟨_, rfl, h.closed ht⟩
      | idle | opening _ | holding _ => exact ⟨w, by simp only [Shared.step, ht], h⟩
  | dup fd1 fd2 =>
      by_cases ht : w.pc t = .idle
      · simp only [Shared.step, if_pos ht]
        cases hfd : fd2file w fd1 with
        | error e => exact ⟨w, rfl, h⟩
        | ok k1 =>
            cases hpick : pick w fd2 with
            | error e => exact ⟨w, rfl, h⟩
            | ok k2 => exact h.dup ht (fd2file_ok hfd) (pick_ok hpick)
      · exact ⟨w, if_neg ht, h⟩

theorem start_sound : Sound (start : World θ) := fun k =>
  ⟨.free, rfl, rfl, rfl, (fun _ h => by cases h), fun t =>
    placed_idle k (fun h => by cases h) (Finset.notMem_empty t)
    (fun h => by cases h)⟩

theorem Sound.execAll (acts : List (θ × Action)) (h : Sound w) :
    ∃ w', execAll w acts = some w' ∧ Sound w' := by
  induction acts generalizing w with
  | nil => exact ⟨w, rfl, h⟩
  | cons act acts ih =>
      obtain ⟨w1, hstep, hsound⟩ := h.step act.1 act.2
      obtain ⟨w2, hrest, hsound'⟩ := ih hsound
      refine ⟨w2, ?_, hsound'⟩
      show (Shared.step w act.1 act.2).bind _ = _
      rw [hstep]
      exact hrest

end Ucore.Vfs.Shared
