/-
`append_block`: a block comes to the end of an inode.

The first block behind an indirect block, a doubly indirect one or an entry of
this brings a new block of block numbers with it; for the others that block is
at hand.
-/
import Ucore.Mksfs.Proofs.Stores
import Mathlib.Data.List.GetD

namespace Ucore.Mksfs

open Sfs

variable {s s₁ t u : Image} {v v' v'' : View} {ino buf buf' : Nat → Prop}
  {held : Finset Nat} {lo hi a b c i j n r w inop file size : Nat}
  {cbp : Option Nat} {din : DiskInode} {p : Place} {q q' : Place → Prop}
  {l : List Nat} {ci ci' : CacheInode}

-- ========================================================== a buffer

/-- The next block given out. -/
def Image.taken (s : Image) : Image := { s with
  super := { s.super with unusedBlocks := s.super.unusedBlocks - 1 }
  nextIno := s.nextIno + 1 }

/-- A new buffer of zeros. -/
def Image.withBuffer (s : Image) : Image := { s with
  super := { s.super with unusedBlocks := s.super.unusedBlocks - 1 }
  nextIno := s.nextIno + 1
  caches := Function.update s.caches s.nextIno fun _ => 0
  blocks := Function.update s.blocks (hash32 0)
    (s.nextIno :: s.blocks (hash32 0)) }

/-- The inode with other fields. -/
def Image.withNode (s : Image) (i : Nat) (ci : CacheInode) : Image :=
  { s with nodes := Function.update s.nodes i ci }

/-- The word stored in a cached block. -/
def Image.withWord (s : Image) (c w b : Nat) : Image := { s with
  caches := Function.update s.caches c (Function.update (s.caches c) w b) }

theorem view_withWord : (s.withWord c w b).view = s.view.setWord c w b := rfl

theorem view_withNode :
    (s.withNode i ci).view = s.view.setInode i ci.din ci.dbIndirect := by
  unfold Image.view Image.withNode View.setInode
  rw [View.mk.injEq]
  refine ⟨funext fun j => ?_, funext fun j => ?_, rfl⟩
  · exact Function.apply_update (fun _ ci => ci.din) s.nodes i ci j
  · exact Function.apply_update (fun _ ci => ci.dbIndirect) s.nodes i ci j

/-- A hash list with a new head. -/
theorem exists_mem_push {f : Nat → List Nat} {k : Nat} :
    (∃ m, c ∈ Function.update f k (a :: f k) m) ↔ (∃ m, c ∈ f m) ∨ c = a := by
  constructor
  · rintro ⟨m, hm⟩
    rw [Function.update_apply] at hm
    split at hm
    case isTrue heq =>
        rcases List.mem_cons.1 hm with hc | hin
        · exact Or.inr hc
        · exact Or.inl ⟨_, hin⟩
    case isFalse => exact Or.inl ⟨m, hm⟩
  · rintro (⟨m, hm⟩ | rfl)
    · refine ⟨m, ?_⟩
      rw [Function.update_apply]
      split
      case isTrue heq => exact List.mem_cons_of_mem _ (heq ▸ hm)
      case isFalse => exact hm
    · refine ⟨k, ?_⟩
      rw [Function.update_self]
      exact List.mem_cons_self

theorem buffered_withBuffer :
    s.withBuffer.Buffered c ↔ s.Buffered c ∨ c = s.nextIno := exists_mem_push

theorem sfsAllocIno_run (hrun : sfsAllocIno s = some (r, t)) :
    s.nextIno < s.ninos ∧ r = s.nextIno ∧ t = s.taken := by
  unfold sfsAllocIno at hrun
  rw [Call.bind_get_eq] at hrun
  split at hrun
  case isFalse => exact absurd hrun Call.panic_ne_some
  case isTrue hlt =>
      rw [Call.bind_modify_eq] at hrun
      obtain ⟨rfl, rfl⟩ := Call.pure_eq_some.1 hrun
      exact ⟨hlt, rfl, rfl⟩

/-- The block is there and at hand, or it is a new one. -/
theorem updateCache_run (hhand : inop ≠ 0 → cbp = some inop)
    (hrun : updateCache cbp inop s = some (r, t)) :
    (inop ≠ 0 ∧ r = inop ∧ t = s)
      ∨ inop = 0 ∧ s.nextIno < s.ninos ∧ r = s.nextIno ∧ t = s.withBuffer := by
  unfold updateCache at hrun
  split at hrun
  case isTrue hzero =>
      unfold allocCacheBlock at hrun
      rw [if_neg (not_not_intro rfl)] at hrun
      obtain ⟨number, s₁, halloc, hrest⟩ := Call.bind_eq_some.1 hrun
      obtain ⟨hlt, rfl, rfl⟩ := sfsAllocIno_run halloc
      dsimp only at hrest
      rw [Call.bind_modify_eq] at hrest
      obtain ⟨rfl, rfl⟩ := Call.pure_eq_some.1 hrest
      exact Or.inr ⟨hzero, hlt, rfl, rfl⟩
  case isFalse hne =>
      rw [if_pos (hhand hne)] at hrun
      obtain ⟨rfl, rfl⟩ := Call.pure_eq_some.1 hrun
      exact Or.inl ⟨hne, rfl, rfl⟩

-- ==================================================== what is placed

/-- The blocks given out are counted, and have owners. -/
structure Placed (ino : Nat → Prop) (held : Finset Nat) (s : Image) : Prop where
  owned : Owned s.view ino s.Buffered held (firstIno s.ninos) s.nextIno
  first_le : firstIno s.ninos ≤ s.nextIno
  next_le : s.nextIno ≤ s.ninos
  unused : s.super.unusedBlocks = s.ninos - s.nextIno

theorem root_lt_first (ninos : Nat) : sfsBlknRoot < firstIno ninos :=
  Nat.lt_of_lt_of_le (by decide) (Nat.le_add_right sfsBlknFreemap _)

/-- What the allocation of blocks and of buffers is counted in. -/
structure Counted (s t : Image) (k : Nat) : Prop where
  ninos : t.ninos = s.ninos
  nextIno : t.nextIno = s.nextIno + k
  unused : t.super.unusedBlocks = s.super.unusedBlocks - k

namespace Placed

theorem next_ne_zero (h : Placed ino held s) : s.nextIno ≠ 0 := by
  have hroot := root_lt_first s.ninos
  have hle := h.first_le
  omega

theorem notMem (h : Placed ino held s) : s.nextIno ∉ held :=
  h.owned.notMem h.first_le (root_lt_first _)

theorem count (h : Placed ino held s) {k : Nat} (hc : Counted s t k)
    (hle : s.nextIno + k ≤ s.ninos) {ino' : Nat → Prop} {held' : Finset Nat}
    (howned : Owned t.view ino' t.Buffered held' (firstIno s.ninos)
      (s.nextIno + k)) : Placed ino' held' t := by
  have hfirst := h.first_le
  refine ⟨?_, ?_, ?_, ?_⟩
  · rw [hc.ninos, hc.nextIno]
    exact howned
  · rw [hc.ninos, hc.nextIno]
    omega
  · rw [hc.ninos, hc.nextIno]
    exact hle
  · rw [hc.unused, hc.ninos, hc.nextIno, h.unused]
    omega

/-- A block is taken in hand. -/
theorem alloc (h : Placed ino held s) (hlt : s.nextIno < s.ninos) :
    Placed ino (insert s.nextIno held) s.taken :=
  h.count (t := s.taken) ⟨rfl, rfl, rfl⟩ hlt
    (h.owned.alloc h.first_le (root_lt_first _))

/-- The next block stands nowhere. -/
theorem nowhere (h : Placed ino held s) : Nowhere s.view ino s.nextIno := by
  have howned := h.owned.alloc h.first_le (root_lt_first _)
  exact howned.nowhere (Finset.mem_insert_self _ _) h.next_ne_zero

end Placed

/-- Places `q` of an inode have blocks, and no other place changed. -/
structure Gain (v v' : View) (ino : Nat → Prop) (file : Nat)
    (q : Place → Prop) : Prop where
  new : ∀ p, q p → v'.target file p ≠ 0
  other : ∀ i, ino i → ∀ p, ¬ (i = file ∧ q p) →
    v'.target i p = v.target i p

namespace Gain

theorem refl (hq : ∀ p, ¬ q p) : Gain v v ino file q :=
  ⟨fun p hp => absurd hp (hq p), fun _ _ _ _ => rfl⟩

theorem trans (h : Gain v v' ino file q) (h' : Gain v' v'' ino file q')
    (hfile : ino file) : Gain v v'' ino file fun p => q p ∨ q' p := by
  refine ⟨fun p hp => ?_, fun i hi p hp => ?_⟩
  · by_cases hq' : q' p
    · exact h'.new p hq'
    · rw [h'.other file hfile p fun hboth => hq' hboth.2]
      exact h.new p (hp.resolve_right hq')
  · rw [h'.other i hi p fun hboth => hp ⟨hboth.1, Or.inr hboth.2⟩]
    exact h.other i hi p fun hboth => hp ⟨hboth.1, Or.inl hboth.2⟩

theorem mono (h : Gain v v' ino file q) (hq : ∀ p, q' p ↔ q p) :
    Gain v v' ino file q' :=
  ⟨fun p hp => h.new p ((hq p).1 hp), fun i hi p hp =>
    h.other i hi p fun hboth => hp ⟨hboth.1, (hq p).2 hboth.2⟩⟩

end Gain

theorem Put.gain (h : Put v v' ino (file, p) b) (hfile : ino file)
    (hb : b ≠ 0) : Gain v v' ino file fun p' => p' = p := by
  refine ⟨fun p' hp => ?_, fun i hi p' hp => ?_⟩
  · rw [h.target file hfile p', if_pos (by rw [hp])]
    exact hb
  · rw [h.target i hi p', if_neg fun heq => hp (Prod.mk.inj heq)]

/-- A new buffer goes to a place of an inode. -/
theorem Placed.buffer (h : Placed ino held s) (hlt : s.nextIno < s.ninos)
    (hfile : ino file) (hmeta : p.Meta)
    (hput : Put (s.view.clear s.nextIno) t.view ino (file, p) s.nextIno)
    (hblocks : t.blocks = s.withBuffer.blocks) (hcounted : Counted s t 1) :
    Placed ino held t ∧ Gain s.view t.view ino file fun p' => p' = p := by
  have hclear : ∀ i, ino i → ∀ p',
      (s.view.clear s.nextIno).target i p' = s.view.target i p' :=
    fun i hi p' => h.nowhere.target_clear hi p'
  have howned := (h.owned.alloc h.first_le (root_lt_first _)).congr hclear
    (fun _ => Iff.rfl) fun _ => Iff.rfl
  constructor
  · refine h.count hcounted hlt (howned.put h.notMem h.next_ne_zero hfile hput
      fun c => ?_)
    have hbuf := buffered_withBuffer (s := s) (c := c)
    unfold Image.Buffered at hbuf ⊢
    rw [hblocks, hbuf]
    simp only [hmeta, true_and]
  · have hgain := hput.gain hfile h.next_ne_zero
    refine ⟨hgain.new, fun i hi p' hp' => ?_⟩
    rw [hgain.other i hi p' hp', hclear i hi]

/-- The same blocks stand where they stood. -/
theorem Placed.same (h : Placed ino held s) (hview : t.view = s.view)
    (hblocks : t.blocks = s.blocks) (hcounted : Counted s t 0) :
    Placed ino held t := by
  refine h.count hcounted h.next_le ?_
  rw [hview]
  refine h.owned.congr (fun _ _ _ => rfl) (fun _ => Iff.rfl) fun c => ?_
  unfold Image.Buffered
  rw [hblocks]

/-- A block in hand goes to an index of an inode. -/
theorem Placed.store (h : Placed ino (insert b held) s) (hb : b ∉ held)
    (hne : b ≠ 0) (hfile : ino file)
    (hput : Put s.view t.view ino (file, .data n) b)
    (hblocks : t.blocks = s.blocks) (hcounted : Counted s t 0) :
    Placed ino held t := by
  refine h.count hcounted h.next_le (h.owned.put hb hne hfile hput fun c => ?_)
  unfold Image.Buffered
  rw [hblocks]
  exact ⟨Or.inl, fun hboth => hboth.resolve_right fun hmeta => hmeta.1⟩

-- ========================================================= an append

/-- The places that a block with index `n` is the first to have a block at. -/
def Place.FirstAt (n : Nat) : Place → Prop
  | .self => False
  | .data m => m = n
  | .indirect => n = sfsL0Nblks
  | .dbIndirect => n = sfsL1Nblks
  | .dbEntry a => n = sfsL1Nblks + a * sfsBlkNentry

/-- What calls that extend an inode leave as it is. -/
structure Beside (file : Nat) (s t : Image) : Prop where
  next_le : s.nextIno ≤ t.nextIno
  ninos : t.ninos = s.ninos
  inodes : t.inodes = s.inodes
  disk : t.disk = s.disk
  entryName : t.entryName = s.entryName
  stored : t.stored = s.stored
  written : t.written = s.written
  super : t.super = { s.super with unusedBlocks := t.super.unusedBlocks }
  blocks : ∀ k, k ≠ hash32 0 → t.blocks k = s.blocks k
  nodes : ∀ j, j ≠ file → t.nodes j = s.nodes j
  node : t.nodes file = { s.nodes file with
    din := { (s.nodes file).din with
      direct := (t.nodes file).din.direct
      indirect := (t.nodes file).din.indirect }
    dbIndirect := (t.nodes file).dbIndirect
    l1 := (t.nodes file).l1
    l2 := (t.nodes file).l2 }

namespace Beside

theorem refl (file : Nat) (s : Image) : Beside file s s :=
  ⟨Nat.le_refl _, rfl, rfl, rfl, rfl, rfl, rfl, rfl, fun _ _ => rfl,
    fun _ _ => rfl, rfl⟩

theorem trans (h : Beside file s t) (h' : Beside file t u) :
    Beside file s u := by
  refine ⟨Nat.le_trans h.next_le h'.next_le, h'.ninos.trans h.ninos, h'.inodes.trans h.inodes,
    h'.disk.trans h.disk, h'.entryName.trans h.entryName,
    h'.stored.trans h.stored, h'.written.trans h.written, ?_,
    fun k hk => (h'.blocks k hk).trans (h.blocks k hk),
    fun j hj => (h'.nodes j hj).trans (h.nodes j hj), ?_⟩
  · rw [h'.super, h.super]
  · rw [h'.node, h.node]

theorem withBuffer (file : Nat) (s : Image) : Beside file s s.withBuffer :=
  ⟨Nat.le_succ _, rfl, rfl, rfl, rfl, rfl, rfl, rfl,
    fun _ hk => Function.update_of_ne hk .., fun _ _ => rfl, rfl⟩

theorem withWord (file : Nat) (s : Image) (c w b : Nat) :
    Beside file s (s.withWord c w b) :=
  ⟨Nat.le_refl _, rfl, rfl, rfl, rfl, rfl, rfl, rfl, fun _ _ => rfl,
    fun _ _ => rfl, rfl⟩

theorem withNode (hnode : ci = { s.nodes file with
    din := { (s.nodes file).din with
      direct := ci.din.direct, indirect := ci.din.indirect }
    dbIndirect := ci.dbIndirect, l1 := ci.l1, l2 := ci.l2 }) :
    Beside file s (s.withNode file ci) := by
  refine ⟨Nat.le_refl _, rfl, rfl, rfl, rfl, rfl, rfl, rfl, fun _ _ => rfl,
    fun _ hj => Function.update_of_ne hj .., ?_⟩
  have hself : (s.withNode file ci).nodes file = ci := Function.update_self ..
  rw [hself]
  exact hnode

end Beside

theorem withNode_self : (s.withNode i ci).nodes i = ci := Function.update_self ..

/-- An inode that is stored with the same blocks. -/
theorem view_withNode_same (hdin : ci.din = (s.nodes i).din)
    (hdb : ci.dbIndirect = (s.nodes i).dbIndirect) :
    (s.withNode i ci).view = s.view := by
  have hsame : s.view.setInode i ci.din ci.dbIndirect = s.view := by
    unfold View.setInode
    rw [hdin, hdb]
    exact congrArg₂ (View.mk · · s.view.word) (Function.update_eq_self ..)
      (Function.update_eq_self ..)
  rw [view_withNode, hsame]

theorem view_withWord_same (hword : s.caches c w = b) :
    (s.withWord c w b).view = s.view := by
  have hsame : (s.withWord c w b).caches = s.caches := by
    unfold Image.withWord
    dsimp only
    rw [← hword, Function.update_eq_self, Function.update_eq_self]
  unfold Image.view
  rw [hsame]
  rfl

/-- The indirect block is there when a block behind it comes. -/
theorem indirect_stage (h : Placed ino held s) (hfile : ino file)
    (hci : s.nodes file = ci)
    (hhand : ci.din.indirect ≠ 0 → ci.l1 = some ci.din.indirect)
    (hrun : updateCache ci.l1 ci.din.indirect s = some (r, s₁))
    (ht : t = s₁.withNode file { ci with
      din := { ci.din with indirect := r }, l1 := some r }) :
    Placed ino held t ∧ Beside file s t
      ∧ Gain s.view t.view ino file
        fun p => p = .indirect ∧ ci.din.indirect = 0 := by
  rcases updateCache_run hhand hrun with ⟨hne, rfl, rfl⟩ | ⟨hzero, hlt, rfl, rfl⟩
  · have hview : t.view = s₁.view := by
      rw [ht]
      exact view_withNode_same (by rw [hci]) (by rw [hci])
    refine ⟨h.same hview (by rw [ht]; rfl) ?_, ?_, ?_⟩
    · rw [ht]
      exact ⟨rfl, rfl, rfl⟩
    · rw [ht]
      exact Beside.withNode (by rw [hci])
    · rw [hview]
      exact Gain.refl fun p hp => hne hp.2
  · have hview : t.view = (s.view.clear s.nextIno).setInode file
        { ci.din with indirect := s.nextIno } ci.dbIndirect := by
      rw [ht, view_withNode]
      rfl
    have hput : Put (s.view.clear s.nextIno) t.view ino (file, .indirect)
        s.nextIno := by
      have hdb : ci.dbIndirect = (s.view.clear s.nextIno).dbIndirect file := by
        rw [← hci]
        rfl
      rw [hview, hdb]
      refine put_indirect View.wordAt_clear_self ?_ rfl ?_
      · rw [← hci]
        rfl
      · rw [← hci] at hzero
        exact hzero
    obtain ⟨hplaced, hgain⟩ := h.buffer hlt hfile
      (show Place.Meta .indirect from trivial) hput
      (by rw [ht]; rfl) (by rw [ht]; exact ⟨rfl, rfl, rfl⟩)
    refine ⟨hplaced, ?_, hgain.mono fun p => and_iff_left hzero⟩
    rw [ht]
    refine (Beside.withBuffer file s).trans (Beside.withNode ?_)
    rw [show s.withBuffer.nodes file = ci from hci]

/-- So is the doubly indirect block. -/
theorem dbIndirect_stage (h : Placed ino held s) (hfile : ino file)
    (hci : s.nodes file = ci)
    (hhand : ci.dbIndirect ≠ 0 → ci.l2 = some ci.dbIndirect)
    (hrun : updateCache ci.l2 ci.dbIndirect s = some (r, s₁))
    (ht : t = s₁.withNode file { ci with dbIndirect := r, l2 := some r }) :
    Placed ino held t ∧ Beside file s t
      ∧ Gain s.view t.view ino file
        fun p => p = .dbIndirect ∧ ci.dbIndirect = 0 := by
  rcases updateCache_run hhand hrun with ⟨hne, rfl, rfl⟩ | ⟨hzero, hlt, rfl, rfl⟩
  · have hview : t.view = s₁.view := by
      rw [ht]
      exact view_withNode_same (by rw [hci]) (by rw [hci])
    refine ⟨h.same hview (by rw [ht]; rfl) ?_, ?_, ?_⟩
    · rw [ht]
      exact ⟨rfl, rfl, rfl⟩
    · rw [ht]
      exact Beside.withNode (by rw [hci])
    · rw [hview]
      exact Gain.refl fun p hp => hne hp.2
  · have hview : t.view
        = (s.view.clear s.nextIno).setInode file ci.din s.nextIno := by
      rw [ht, view_withNode]
      rfl
    have hput : Put (s.view.clear s.nextIno) t.view ino (file, .dbIndirect)
        s.nextIno := by
      have hdin : ci.din = (s.view.clear s.nextIno).din file := by
        rw [← hci]
        rfl
      rw [hview, hdin]
      refine put_dbIndirect View.wordAt_clear_self ?_
      rw [← hci] at hzero
      exact hzero
    obtain ⟨hplaced, hgain⟩ := h.buffer hlt hfile
      (show Place.Meta .dbIndirect from trivial) hput
      (by rw [ht]; rfl) (by rw [ht]; exact ⟨rfl, rfl, rfl⟩)
    refine ⟨hplaced, ?_, hgain.mono fun p => and_iff_left hzero⟩
    rw [ht]
    refine (Beside.withBuffer file s).trans (Beside.withNode ?_)
    rw [show s.withBuffer.nodes file = ci from hci]

/-- And the block behind it. -/
theorem dbEntry_stage (h : Placed ino held s) (hfile : ino file)
    (hci : s.nodes file = ci) (hdb : ci.dbIndirect = c) (hc : c ≠ 0)
    (ha : a < sfsBlkNentry) (hw : s.caches c a = w)
    (hhand : w ≠ 0 → ci.l1 = some w)
    (hrun : updateCache ci.l1 w s = some (r, s₁))
    (ht : t = (s₁.withNode file { ci with l1 := some r }).withWord c a r) :
    Placed ino held t ∧ Beside file s t
      ∧ Gain s.view t.view ino file fun p => p = .dbEntry a ∧ w = 0 := by
  have htarget : s.view.target file (.dbEntry a) = w := by
    rw [View.target_dbEntry ha, show s.view.dbIndirect file = c by
      rw [← hdb, ← hci]; rfl]
    exact (if_neg hc).trans hw
  rcases updateCache_run hhand hrun with ⟨hne, rfl, rfl⟩ | ⟨hzero, hlt, rfl, rfl⟩
  · have hview : t.view = s₁.view := by
      rw [ht]
      refine Eq.trans (view_withWord_same ?_)
        (view_withNode_same (i := file) (by rw [hci]) (by rw [hci]))
      exact hw
    refine ⟨h.same hview (by rw [ht]; rfl) ?_, ?_, ?_⟩
    · rw [ht]
      exact ⟨rfl, rfl, rfl⟩
    · rw [ht]
      exact (Beside.withNode (by rw [hci])).trans (Beside.withWord ..)
    · rw [hview]
      exact Gain.refl fun p hp => hne hp.2
  · have hview : t.view
        = (s.view.clear s.nextIno).setWord c a s.nextIno := by
      rw [ht, view_withWord, view_withNode_same]
      · rfl
      · rw [show s.withBuffer.nodes file = ci from hci]
      · rw [show s.withBuffer.nodes file = ci from hci]
    have hdb' : (s.view.clear s.nextIno).dbIndirect file = c := by
      rw [← hdb, ← hci]
      rfl
    have hput : Put (s.view.clear s.nextIno) t.view ino (file, .dbEntry a)
        s.nextIno := by
      have hne : s.nextIno ≠ c := by
        rw [← hdb']
        exact fun heq => h.nowhere file hfile .dbIndirect heq.symm
      rw [hview, ← hdb']
      refine put_dbEntry View.wordAt_clear_self (by rwa [hdb'])
        (by rwa [hdb']) ?_ ha ?_
      · intro i hi p heq
        rw [h.nowhere.target_clear hi] at heq
        have hne' : s.view.target file .dbIndirect ≠ 0 := by
          rw [show s.view.target file .dbIndirect = c from hdb']
          exact hc
        exact h.owned.sole hfile hne' i hi p heq
      · rw [h.nowhere.target_clear hfile, htarget, hzero]
    obtain ⟨hplaced, hgain⟩ := h.buffer hlt hfile
      (show (Place.dbEntry a).Meta from trivial) hput
      (by rw [ht]; rfl) (by rw [ht]; exact ⟨rfl, rfl, rfl⟩)
    refine ⟨hplaced, ?_, hgain.mono fun p => and_iff_left hzero⟩
    rw [ht]
    refine ((Beside.withBuffer file s).trans (Beside.withNode ?_)).trans
      (Beside.withWord ..)
    rw [show s.withBuffer.nodes file = ci from hci]

-- ======================================================== the blocks

/-- The places of an inode hold the blocks `l`, and its last buffers are at
hand. -/
structure Filled (target : Place → Nat) (ci : CacheInode) (l : List Nat) :
    Prop where
  nblks : ci.nblks = l.length
  blocks : ci.din.blocks = l.length
  le : l.length ≤ sfsLnNblks
  pos : 0 ∉ l
  data : ∀ n, target (.data n) = l.getD n 0
  indirect : target .indirect ≠ 0 ↔ sfsL0Nblks < l.length
  dbIndirect : target .dbIndirect ≠ 0 ↔ sfsL1Nblks < l.length
  dbEntry : ∀ a, target (.dbEntry a) ≠ 0
    ↔ sfsL1Nblks + a * sfsBlkNentry < l.length
  l1 : sfsL0Nblks < l.length → ci.l1 = some (if l.length ≤ sfsL1Nblks
    then target .indirect
    else target (.dbEntry ((l.length - 1 - sfsL1Nblks) / sfsBlkNentry)))
  l2 : sfsL1Nblks < l.length → ci.l2 = some (target .dbIndirect)

/-- Block `b` came to index `n` of an inode, with the buffers that it needs. -/
structure Stored (ino : Nat → Prop) (held : Finset Nat) (file b n : Nat)
    (s t : Image) : Prop where
  placed : Placed ino held t
  beside : Beside file s t
  gain : Gain s.view t.view ino file (Place.FirstAt n)
  data : t.view.target file (.data n) = b
  l1 : sfsL0Nblks ≤ n → (t.nodes file).l1 = some (if n < sfsL1Nblks
    then t.view.target file .indirect
    else t.view.target file (.dbEntry ((n - sfsL1Nblks) / sfsBlkNentry)))
  l2 : sfsL1Nblks ≤ n → (t.nodes file).l2 = some (t.view.target file .dbIndirect)

theorem l0_lt_l1 : sfsL0Nblks < sfsL1Nblks := by
  decide

theorem Filled.empty (h : Filled (s.view.target file) ci l)
    (hn : l.length ≤ n) : s.view.target file (.data n) = 0 := by
  rw [h.data, List.getD_eq_default _ _ hn]

theorem direct_stored (h : Placed ino (insert b held) s) (hb : b ∉ held)
    (hne : b ≠ 0) (hfile : ino file) (hci : s.nodes file = ci)
    (hfilled : Filled (s.view.target file) ci l) (hn : l.length < sfsL0Nblks)
    (ht : t = s.withNode file { ci with din := { ci.din with
      direct := Function.update ci.din.direct ⟨l.length, hn⟩ b } }) :
    Stored ino held file b l.length s t := by
  have hl1 := l0_lt_l1
  have hput : Put s.view t.view ino (file, .data l.length) b := by
    rw [ht, view_withNode, show ci.dbIndirect = s.view.dbIndirect file by
      rw [← hci]; rfl]
    rw [← hci] at hfilled ⊢
    exact put_direct hn rfl rfl (hfilled.empty (Nat.le_refl _))
  refine ⟨?_, ?_, (hput.gain hfile hne).mono fun p => ?_, ?_, ?_, ?_⟩
  · refine h.store hb hne hfile hput (by rw [ht]; rfl) ?_
    rw [ht]
    exact ⟨rfl, rfl, rfl⟩
  · rw [ht]
    exact Beside.withNode (by rw [hci])
  · cases p with
    | self => simp [Place.FirstAt]
    | data m => simp [Place.FirstAt]
    | indirect =>
        simp [Place.FirstAt]
        omega
    | dbIndirect =>
        simp [Place.FirstAt]
        omega
    | dbEntry a =>
        simp [Place.FirstAt]
        omega
  · rw [hput.target file hfile, if_pos rfl]
  · exact fun hlo => absurd hn (Nat.not_lt.2 hlo)
  · intro hlo
    omega

theorem appendIndirect_stored (h : Placed ino (insert b held) s) (hb : b ∉ held)
    (hne : b ≠ 0) (hfile : ino file) (hci : s.nodes file = ci)
    (hfilled : Filled (s.view.target file) ci l)
    (hlo : sfsL0Nblks ≤ l.length) (hhi : l.length < sfsL1Nblks)
    (hrun : appendIndirect file (l.length - sfsL0Nblks) b s = some ((), t)) :
    Stored ino held file b l.length s t := by
  have hind : ci.din.indirect = s.view.target file .indirect := by
    rw [← hci]
    rfl
  have hhand : ci.din.indirect ≠ 0 → ci.l1 = some ci.din.indirect := by
    intro hpos
    rw [hind] at hpos ⊢
    rw [hfilled.l1 (hfilled.indirect.1 hpos), if_pos (by omega)]
  unfold appendIndirect getNode at hrun
  rw [Call.bind_of_eq (a := ci) (t := s)] at hrun
  case h => rw [← hci]; rfl
  obtain ⟨r, s₁, hcache, hrest⟩ := Call.bind_eq_some.1 hrun
  unfold setNode setCache at hrest
  rw [Call.bind_modify_eq, Call.modify_eq_some] at hrest
  obtain ⟨s₂, hs₂⟩ : ∃ s₂, s₂ = s₁.withNode file { ci with
    din := { ci.din with indirect := r }, l1 := some r } := ⟨_, rfl⟩
  obtain ⟨hplaced, hbeside, hgain⟩ :=
    indirect_stage h hfile hci hhand hcache hs₂
  have hnode : s₂.nodes file = { ci with
      din := { ci.din with indirect := r }, l1 := some r } := by
    rw [hs₂]
    exact withNode_self
  have hr : r = s₂.view.target file .indirect := by
    show r = (s₂.nodes file).din.indirect
    rw [hnode]
  have ht : t = s₂.withWord r (l.length - sfsL0Nblks) b := by
    rw [hrest, hs₂]
    rfl
  have hpos : s₂.view.target file .indirect ≠ 0 := by
    by_cases hzero : ci.din.indirect = 0
    · exact hgain.new _ ⟨rfl, hzero⟩
    · rw [hgain.other file hfile _ fun hboth => hzero hboth.2.2, ← hind]
      exact hzero
  have hput : Put s₂.view t.view ino (file, .data l.length) b := by
    rw [ht, hr]
    refine put_indirectData hlo hhi hpos (hplaced.owned.sole hfile hpos) ?_
    rw [hgain.other file hfile _ fun hboth => by cases hboth.2.1]
    exact hfilled.empty (Nat.le_refl _)
  have hlast : t.nodes file = s₂.nodes file := by
    rw [ht]
    rfl
  refine ⟨?_, ?_, ?_, ?_, ?_, ?_⟩
  · refine hplaced.store hb hne hfile hput (by rw [ht]; rfl) ?_
    rw [ht]
    exact ⟨rfl, rfl, rfl⟩
  · rw [ht]
    exact hbeside.trans (Beside.withWord ..)
  · refine (hgain.trans (hput.gain hfile hne) hfile).mono fun p => ?_
    have hfirst : ci.din.indirect = 0 ↔ l.length = sfsL0Nblks := by
      rw [hind, ← not_iff_not, ← ne_eq, hfilled.indirect]
      omega
    cases p with
    | self => simp [Place.FirstAt]
    | data m => simp [Place.FirstAt]
    | indirect => simp [Place.FirstAt, hfirst]
    | dbIndirect =>
        simp [Place.FirstAt]
        omega
    | dbEntry a =>
        simp [Place.FirstAt]
        omega
  · rw [hput.target file hfile, if_pos rfl]
  · intro _
    rw [hlast, hnode, if_pos hhi, hput.target file hfile,
      if_neg (fun h => by cases h), ← hr]
  · intro hlo'
    omega

theorem appendDbIndirect_stored (h : Placed ino (insert b held) s)
    (hb : b ∉ held) (hne : b ≠ 0) (hfile : ino file) (hci : s.nodes file = ci)
    (hfilled : Filled (s.view.target file) ci l)
    (hlo : sfsL1Nblks ≤ l.length) (hhi : l.length < sfsL2Nblks)
    (hrun : appendDbIndirect file (l.length - sfsL1Nblks) b s
      = some ((), t)) : Stored ino held file b l.length s t := by
  have hl1 := l0_lt_l1
  have hentry := View.entry_lt hlo hhi
  have hdb : ci.dbIndirect = s.view.target file .dbIndirect := by
    rw [← hci]
    rfl
  have hhand : ci.dbIndirect ≠ 0 → ci.l2 = some ci.dbIndirect := by
    intro hpos
    rw [hdb] at hpos ⊢
    rw [hfilled.l2 (hfilled.dbIndirect.1 hpos)]
  unfold appendDbIndirect getNode at hrun
  rw [Call.bind_of_eq (a := ci) (t := s)] at hrun
  case h => rw [← hci]; rfl
  obtain ⟨l2, s₁, hcache, hrest⟩ := Call.bind_eq_some.1 hrun
  unfold setNode getCache at hrest
  rw [Call.bind_modify_eq] at hrest
  obtain ⟨ci₂, hci₂⟩ : ∃ ci₂, ci₂ = { ci with
    dbIndirect := l2, l2 := some l2 } := ⟨_, rfl⟩
  obtain ⟨s₂, hs₂⟩ : ∃ s₂, s₂ = s₁.withNode file ci₂ := ⟨_, rfl⟩
  obtain ⟨hplaced, hbeside, hgain⟩ :=
    dbIndirect_stage h hfile hci hhand hcache (hs₂.trans (by rw [hci₂]))
  have hnode : s₂.nodes file = ci₂ := by
    rw [hs₂]
    exact withNode_self
  have hl2 : ci₂.dbIndirect = l2 := by rw [hci₂]
  have hpos : l2 ≠ 0 := by
    have htarget : s₂.view.target file .dbIndirect = l2 := by
      show (s₂.nodes file).dbIndirect = l2
      rw [hnode, hl2]
    rw [← htarget]
    by_cases hzero : ci.dbIndirect = 0
    · exact hgain.new _ ⟨rfl, hzero⟩
    · rw [hgain.other file hfile _ fun hboth => hzero hboth.2.2, ← hdb]
      exact hzero
  rw [Call.bind_of_eq (a := ci₂) (t := s₂)] at hrest
  case h =>
      rw [← hnode, hs₂, hci₂]
      rfl
  obtain ⟨q, hq⟩ : ∃ q, q = (l.length - sfsL1Nblks) / sfsBlkNentry := ⟨_, rfl⟩
  rw [← hq] at hrest hentry
  rw [Call.bind_of_eq (a := s₂.caches l2 q) (t := s₂)] at hrest
  case h => rfl
  have hkept : ∀ {p}, p ≠ .dbIndirect →
      s₂.view.target file p = s.view.target file p := fun hp =>
    hgain.other file hfile _ fun hboth => hp hboth.2.1
  have hword : s₂.caches l2 q = s.view.target file (.dbEntry q) := by
    rw [← hkept (fun h => by cases h), View.target_dbEntry hentry]
    show _ = s₂.view.wordAt (s₂.nodes file).dbIndirect q
    rw [hnode, hl2]
    exact (if_neg hpos).symm
  have hhand₂ : s₂.caches l2 q ≠ 0 → ci₂.l1 = some (s₂.caches l2 q) := by
    intro hne'
    rw [hword] at hne' ⊢
    have hlt := (hfilled.dbEntry q).1 hne'
    have hlast : (l.length - 1 - sfsL1Nblks) / sfsBlkNentry = q := by
      unfold sfsBlkNentry sfsBlksize at *
      omega
    rw [hci₂, ← hlast]
    show ci.l1 = _
    rw [hfilled.l1 (by omega), if_neg (by omega)]
  obtain ⟨r, s₃, hcache₃, hrest⟩ := Call.bind_eq_some.1 hrest
  unfold setCache at hrest
  rw [Call.bind_modify_eq, Call.bind_modify_eq, Call.modify_eq_some] at hrest
  obtain ⟨s₄, hs₄⟩ : ∃ s₄, s₄ = (s₃.withNode file
    { ci₂ with l1 := some r }).withWord l2 q r := ⟨_, rfl⟩
  obtain ⟨hplaced₄, hbeside₄, hgain₄⟩ :=
    dbEntry_stage hplaced hfile hnode hl2 hpos hentry rfl hhand₂ hcache₃ hs₄
  have hkept₄ : ∀ {p}, p ≠ .dbEntry q →
      s₄.view.target file p = s₂.view.target file p := fun hp =>
    hgain₄.other file hfile _ fun hboth => hp hboth.2.1
  have hnode₄ : s₄.nodes file = { ci₂ with l1 := some r } := by
    rw [hs₄]
    exact withNode_self
  have hr : s₄.view.target file (.dbEntry q) = r := by
    rw [View.target_dbEntry hentry]
    show s₄.view.wordAt (s₄.nodes file).dbIndirect q = r
    rw [hnode₄, hl2, hs₄, view_withWord, View.wordAt_setWord hpos, if_pos rfl]
  have hrpos : s₄.view.target file (.dbEntry q) ≠ 0 := by
    by_cases hzero : s₂.caches l2 q = 0
    · exact hgain₄.new _ ⟨rfl, hzero⟩
    · rw [hgain₄.other file hfile _ (fun hboth => hzero hboth.2.2),
        hkept (fun h => by cases h), ← hword]
      exact hzero
  have ht : t = s₄.withWord r ((l.length - sfsL1Nblks) % sfsBlkNentry) b := by
    rw [hrest, hs₄]
    rfl
  have hput : Put s₄.view t.view ino (file, .data l.length) b := by
    have hsole := hplaced₄.owned.sole hfile hrpos
    rw [hr] at hsole hrpos
    rw [ht]
    refine put_dbIndirectData hlo hhi hq.symm hr hrpos hsole ?_
    rw [hkept₄ (fun h => by cases h), hkept (fun h => by cases h)]
    exact hfilled.empty (Nat.le_refl _)
  have hlast : t.nodes file = { ci₂ with l1 := some r } := by
    rw [← hnode₄, ht]
    rfl
  refine ⟨?_, ?_, ?_, ?_, ?_, ?_⟩
  · refine hplaced₄.store hb hne hfile hput (by rw [ht]; rfl) ?_
    rw [ht]
    exact ⟨rfl, rfl, rfl⟩
  · rw [ht]
    exact (hbeside.trans hbeside₄).trans (Beside.withWord ..)
  · refine ((hgain.trans hgain₄ hfile).trans (hput.gain hfile hne)
      hfile).mono fun p => ?_
    have hfirst : ci.dbIndirect = 0 ↔ l.length = sfsL1Nblks := by
      rw [hdb, ← not_iff_not, ← ne_eq, hfilled.dbIndirect]
      omega
    have hfirst₂ : s₂.caches l2 q = 0
        ↔ l.length = sfsL1Nblks + q * sfsBlkNentry := by
      rw [hword, ← not_iff_not, ← ne_eq, hfilled.dbEntry]
      unfold sfsBlkNentry sfsBlksize at *
      omega
    cases p with
    | self => simp [Place.FirstAt]
    | data m => simp [Place.FirstAt]
    | indirect =>
        simp [Place.FirstAt]
        omega
    | dbIndirect => simp [Place.FirstAt, hfirst]
    | dbEntry a =>
        simp [Place.FirstAt, hfirst₂]
        unfold sfsBlkNentry sfsBlksize at *
        omega
  · rw [hput.target file hfile, if_pos rfl]
  · intro _
    rw [hlast, if_neg (Nat.not_lt.2 hlo), hput.target file hfile,
      if_neg (fun h => by cases h), ← hq, hr]
  · intro _
    rw [hlast, hput.target file hfile, if_neg (fun h => by cases h),
      hkept₄ (fun h => by cases h), hci₂]
    show some l2 = some (s₂.nodes file).dbIndirect
    rw [hnode, hl2]

end Ucore.Mksfs
