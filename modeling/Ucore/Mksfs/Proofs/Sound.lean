/-
What holds while mksfs makes an image: the blocks given out have owners and are
counted (`Placed`), each inode holds the blocks that were stored in it
(`Filled`), and what is cached is found.
-/
import Ucore.Mksfs.Proofs.Append

namespace Ucore.Mksfs

open Sfs

variable {s t u : Image} {held : Finset Nat} {b c i j k n r file size : Nat}

-- ===================================================== the invariant

/-- The fields of an inode that count fit. -/
structure CacheInode.Fits (ci : CacheInode) : Prop where
  size : ci.din.size < 256 ^ 4
  type : ci.din.type < 256 ^ 2
  nlinks : ci.din.nlinks < 256 ^ 2

/-- An inode that is not cached yet has no blocks, entries and links. -/
structure Fresh (s : Image) (i : Nat) : Prop where
  stored : s.stored i = []
  written : s.written i = []
  nlinks : (s.nodes i).din.nlinks = 0

structure Sound (held : Finset Nat) (s : Image) : Prop where
  placed : Placed s.Cached held s
  filled : ∀ {i}, s.Cached i →
    Filled (s.view.target i) (s.nodes i) (s.stored i)
  fits : ∀ {i}, s.Cached i → (s.nodes i).Fits
  ninos_le : s.ninos ≤ sfsMaxNblks
  super : s.super = { blocks := s.ninos, unusedBlocks := s.super.unusedBlocks
                      info := s.super.info }
  inodes : ∀ {i k}, i ∈ s.inodes k → k = hash32 (s.nodes i).real
  blocks : ∀ {c k}, c ∈ s.blocks k → k = hash32 0
  fresh : ∀ {i}, ¬ s.Cached i → Fresh s i
  pos : ∀ {i}, s.Cached i → i ≠ 0

theorem cached_congr (h : t.inodes = s.inodes) : t.Cached = s.Cached := by
  funext i
  unfold Image.Cached
  rw [h]

theorem Sound.cached_range (h : Sound held s) (hi : s.Cached i) :
    firstIno s.ninos ≤ i ∧ i < s.nextIno ∨ i = sfsBlknRoot :=
  h.placed.owned.exact.used_iff.2 (Or.inl ⟨(i, .self), hi, rfl, h.pos hi⟩)

theorem Sound.cached_lt (h : Sound held s) (hi : s.Cached i) : i < 256 ^ 4 := by
  have hrange := h.cached_range hi
  have hnext := h.placed.next_le
  have hninos := h.ninos_le
  have hmax : sfsMaxNblks < 256 ^ 4 := by decide
  have hone : sfsBlknRoot < 256 ^ 4 := by decide
  omega

-- ========================================================= appending

/-- What `append_block` does to an image. -/
structure Appended (file size b : Nat) (s t : Image) : Prop where
  next_le : s.nextIno ≤ t.nextIno
  info : t.super.info = s.super.info
  ninos : t.ninos = s.ninos
  inodes : t.inodes = s.inodes
  disk : t.disk = s.disk
  entryName : t.entryName = s.entryName
  written : t.written = s.written
  stored : t.stored = Function.update s.stored file (s.stored file ++ [b])
  nodes : ∀ j, j ≠ file → t.nodes j = s.nodes j
  real : (t.nodes file).real = (s.nodes file).real
  type : (t.nodes file).din.type = (s.nodes file).din.type
  nlinks : (t.nodes file).din.nlinks = (s.nodes file).din.nlinks
  size : (t.nodes file).din.size = ((s.nodes file).din.size + size) % 2 ^ 32

theorem Filled.append {ci ci' : CacheInode} {l : List Nat}
    (h : Filled (s.view.target file) ci l) (hlt : l.length < sfsLnNblks)
    (hnblks : ci'.nblks = ci.nblks + 1)
    (hblocks : ci'.din.blocks = (ci.din.blocks + 1) % 2 ^ 32)
    (hnew : ∀ p : Place, p.FirstAt l.length → t.view.target file p ≠ 0)
    (hold : ∀ p : Place, ¬ p.FirstAt l.length →
      t.view.target file p = s.view.target file p)
    (hdata : t.view.target file (.data l.length) = b)
    (hl1 : sfsL0Nblks ≤ l.length → ci'.l1 = some (if l.length < sfsL1Nblks
      then t.view.target file .indirect
      else t.view.target file (.dbEntry ((l.length - sfsL1Nblks) / sfsBlkNentry))))
    (hl2 : sfsL1Nblks ≤ l.length →
      ci'.l2 = some (t.view.target file .dbIndirect)) :
    Filled (t.view.target file) ci' (l ++ [b]) := by
  have hlen : (l ++ [b]).length = l.length + 1 := by simp
  have hmax : sfsLnNblks < 2 ^ 32 := by decide
  refine ⟨?_, ?_, ?_, fun hin => ?_, fun n => ?_, ?_, ?_, fun a => ?_,
    fun hlo => ?_, fun hlo => ?_⟩
  · rw [hnblks, h.nblks, hlen]
  · rw [hblocks, h.blocks, hlen, Nat.mod_eq_of_lt (by omega)]
  · omega
  · rcases List.mem_append.1 hin with hin | hin
    · exact h.pos hin
    · have hne := hnew (.data l.length) rfl
      rw [hdata] at hne
      exact hne (List.mem_singleton.1 hin).symm
  · by_cases hn : n = l.length
    · rw [hn, hdata]
      simp
    · rw [hold (.data n) hn, h.data]
      rcases Nat.lt_or_ge n l.length with hlt | hge
      · rw [List.getD_append _ _ _ _ hlt]
      · rw [List.getD_eq_default _ _ hge, List.getD_eq_default]
        omega
  · rw [hlen]
    by_cases hfirst : l.length = sfsL0Nblks
    · have hne := hnew .indirect hfirst
      exact ⟨fun _ => by omega, fun _ => hne⟩
    · rw [hold .indirect hfirst, h.indirect]
      omega
  · rw [hlen]
    by_cases hfirst : l.length = sfsL1Nblks
    · have hne := hnew .dbIndirect hfirst
      exact ⟨fun _ => by omega, fun _ => hne⟩
    · rw [hold .dbIndirect hfirst, h.dbIndirect]
      omega
  · rw [hlen]
    by_cases hfirst : l.length = sfsL1Nblks + a * sfsBlkNentry
    · have hne := hnew (.dbEntry a) hfirst
      exact ⟨fun _ => by omega, fun _ => hne⟩
    · rw [hold (.dbEntry a) hfirst, h.dbEntry]
      omega
  · rw [hlen] at hlo
    rw [hl1 (by omega), hlen, Nat.add_sub_cancel]
    congr 1
  · rw [hlen] at hlo
    exact hl2 (by omega)

/-- The end of `append_block`. -/
def Image.ended (s : Image) (file size b : Nat) : Image :=
  { s.withNode file { s.nodes file with
      nblks := (s.nodes file).nblks + 1
      din := { (s.nodes file).din with
        size := ((s.nodes file).din.size + size) % 2 ^ 32
        blocks := ((s.nodes file).din.blocks + 1) % 2 ^ 32 } } with
    stored := Function.update s.stored file (s.stored file ++ [b]) }

theorem ended_node : (s.ended file size b).nodes file = { s.nodes file with
    nblks := (s.nodes file).nblks + 1
    din := { (s.nodes file).din with
      size := ((s.nodes file).din.size + size) % 2 ^ 32
      blocks := ((s.nodes file).din.blocks + 1) % 2 ^ 32 } } := withNode_self

theorem ended_node_ne (hj : j ≠ file) :
    (s.ended file size b).nodes j = s.nodes j := Function.update_of_ne hj ..

theorem ended_target (p : Place) :
    (s.ended file size b).view.target i p = s.view.target i p := by
  by_cases hi : i = file
  · subst hi
    refine View.target_congr ?_ ?_ ?_ fun _ _ => rfl
    · show ((s.ended i size b).nodes i).din.direct = _
      rw [ended_node]
      rfl
    · show ((s.ended i size b).nodes i).din.indirect = _
      rw [ended_node]
      rfl
    · show ((s.ended i size b).nodes i).dbIndirect = _
      rw [ended_node]
      rfl
  · have hnode : (s.ended file size b).nodes i = s.nodes i := ended_node_ne hi
    refine View.target_congr ?_ ?_ ?_ fun _ _ => rfl
    · exact congrArg (fun ci => ci.din.direct) hnode
    · exact congrArg (fun ci => ci.din.indirect) hnode
    · exact congrArg (fun ci => ci.dbIndirect) hnode

/-- What `append_block` makes of the three cases. -/
theorem appendBlock_run (h : Sound (insert b held) s) (hb : b ∉ held)
    (hne : b ≠ 0) (hfile : s.Cached file)
    (hrun : appendBlock file size b s = some ((), t)) :
    ∃ u, Stored s.Cached held file b (s.stored file).length s u
      ∧ (s.stored file).length < sfsLnNblks ∧ t = u.ended file size b := by
  have hfilled := h.filled hfile
  have hmax : sfsLnNblks < sfsL2Nblks := by decide
  have hend : ∀ {u : Image}, some ((), u.ended file size b) = some ((), t) →
      t = u.ended file size b := fun heq =>
    (Prod.mk.inj (Option.some.inj heq)).2.symm
  unfold appendBlock at hrun
  rw [Call.bind_assert_eq_some] at hrun
  obtain ⟨-, hrun⟩ := hrun
  unfold getNode at hrun
  rw [Call.bind_of_eq (a := s.nodes file) (t := s)] at hrun
  case h => rfl
  dsimp only at hrun
  rw [hfilled.nblks] at hrun
  split at hrun
  case isTrue => exact absurd hrun Call.panic_ne_some
  case isFalse hmany =>
      have hlt := Nat.not_le.1 hmany
      split at hrun
      case isTrue hdirect =>
          refine ⟨_, direct_stored h.placed hb hne hfile rfl hfilled hdirect
            (t := s.withNode file { s.nodes file with
              nblks := (s.stored file).length
              din := { (s.nodes file).din with
                direct := Function.update (s.nodes file).din.direct
                  ⟨(s.stored file).length, hdirect⟩ b } }) ?_, hlt, hend hrun⟩
          rw [hfilled.nblks]
      case isFalse hlo =>
          split at hrun
          case isTrue hhi =>
              obtain ⟨_, u, happend, hrest⟩ := Call.bind_eq_some.1 hrun
              exact ⟨u, appendIndirect_stored h.placed hb hne hfile rfl hfilled
                (Nat.not_lt.1 hlo) hhi happend, hlt, hend hrest⟩
          case isFalse hhi =>
              rw [if_pos (Nat.lt_trans hlt hmax)] at hrun
              obtain ⟨_, u, happend, hrest⟩ := Call.bind_eq_some.1 hrun
              exact ⟨u, appendDbIndirect_stored h.placed hb hne hfile rfl hfilled
                (Nat.not_lt.1 hhi) (Nat.lt_trans hlt hmax) happend, hlt,
                hend hrest⟩

/-- A block in hand is stored at the end of an inode. -/
theorem appendBlock_spec (h : Sound (insert b held) s) (hb : b ∉ held)
    (hfile : s.Cached file)
    (hrun : appendBlock file size b s = some ((), t)) :
    Sound held t ∧ Appended file size b s t := by
  have hne : b ≠ 0 := by
    have hrange := h.placed.owned.held_range (Finset.mem_insert_self b held)
    have hroot := root_lt_first s.ninos
    have hpos : 0 < sfsBlknRoot := by decide
    omega
  obtain ⟨u, hstored, hlt, ht⟩ := appendBlock_run h hb hne hfile hrun
  have hbeside := hstored.beside
  have hfilled := h.filled hfile
  have hcached : u.Cached = s.Cached := cached_congr hbeside.inodes
  have hinodes : t.inodes = s.inodes := by
    rw [ht]
    exact hbeside.inodes
  have hcached' : t.Cached = s.Cached := cached_congr hinodes
  have htarget : ∀ i p, t.view.target i p = u.view.target i p := by
    rw [ht]
    exact fun i p => ended_target p
  have hnode : t.nodes file = { u.nodes file with
      nblks := (s.nodes file).nblks + 1
      din := { (u.nodes file).din with
        size := ((s.nodes file).din.size + size) % 2 ^ 32
        blocks := ((s.nodes file).din.blocks + 1) % 2 ^ 32 } } := by
    rw [ht, ended_node, hbeside.node]
  have hnodes : ∀ j, j ≠ file → t.nodes j = s.nodes j := by
    intro j hj
    rw [ht, ended_node_ne hj, hbeside.nodes j hj]
  have hstored' : t.stored
      = Function.update s.stored file (s.stored file ++ [b]) := by
    rw [ht, ← hbeside.stored]
    rfl
  have happended : Appended file size b s t := by
    refine ⟨?_, ?_, ?_, hinodes, ?_, ?_, ?_, hstored', hnodes, ?_, ?_, ?_, ?_⟩
    · rw [ht]
      exact hbeside.next_le
    · rw [ht, show (u.ended file size b).super = u.super from rfl, hbeside.super]
    · rw [ht]
      exact hbeside.ninos
    · rw [ht]
      exact hbeside.disk
    · rw [ht]
      exact hbeside.entryName
    · rw [ht]
      exact hbeside.written
    · rw [hnode, hbeside.node]
    · rw [hnode, hbeside.node]
    · rw [hnode, hbeside.node]
    · rw [hnode]
  refine ⟨⟨?_, fun {i} hi => ?_, fun {i} hi => ?_, ?_, ?_, fun {i k} hi => ?_,
    fun {c k} hc => ?_, fun {i} hi => ?_, fun {i} hi => ?_⟩, happended⟩
  · have hplaced := hstored.placed
    rw [hcached']
    refine hplaced.count (t := t) (k := 0) ?_ hplaced.next_le
      (hplaced.owned.congr (fun i _ p => htarget i p) (fun _ => Iff.rfl) ?_)
    · rw [ht]
      exact ⟨rfl, rfl, rfl⟩
    · rw [ht]
      exact fun _ => Iff.rfl
  · rw [hcached'] at hi
    by_cases hfi : i = file
    · subst hfi
      rw [hstored', Function.update_self]
      refine hfilled.append hlt ?_ ?_ (fun p hp => ?_) (fun p hp => ?_) ?_
        (fun hlo => ?_) fun hlo => ?_
      · rw [hnode]
      · rw [hnode]
      · rw [htarget]
        exact hstored.gain.new p hp
      · rw [htarget]
        exact hstored.gain.other i hfile p fun hboth => hp hboth.2
      · rw [htarget]
        exact hstored.data
      · rw [hnode, htarget, htarget]
        exact hstored.l1 hlo
      · rw [hnode, htarget]
        exact hstored.l2 hlo
    · have hsame : t.view.target i = s.view.target i := by
        funext p
        rw [htarget]
        exact hstored.gain.other i hi p fun hboth => hfi hboth.1
      rw [hsame, hnodes i hfi, hstored', Function.update_of_ne hfi]
      exact h.filled hi
  · rw [hcached'] at hi
    by_cases hfi : i = file
    · subst hfi
      have hfits := h.fits hi
      refine ⟨?_, ?_, ?_⟩
      · rw [hnode]
        exact Nat.mod_lt _ (by decide)
      · rw [happended.type]
        exact hfits.type
      · rw [happended.nlinks]
        exact hfits.nlinks
    · rw [hnodes i hfi]
      exact h.fits hi
  · rw [happended.ninos]
    exact h.ninos_le
  · have hsuper : t.super = u.super := by
      rw [ht]
      rfl
    rw [hsuper, happended.ninos, hbeside.super, h.super]
  · rw [hinodes] at hi
    have hreal : (t.nodes i).real = (s.nodes i).real := by
      by_cases hfi : i = file
      · rw [hfi, happended.real]
      · rw [hnodes i hfi]
    rw [hreal]
    exact h.inodes hi
  · have hblocks : t.blocks = u.blocks := by
      rw [ht]
      rfl
    rw [hblocks] at hc
    by_contra hk
    rw [hbeside.blocks k hk] at hc
    exact hk (h.blocks hc)
  · rw [hcached'] at hi
    have hfi : i ≠ file := fun heq => hi (heq ▸ hfile)
    have hfresh := h.fresh hi
    refine ⟨?_, ?_, ?_⟩
    · rw [hstored', Function.update_of_ne hfi]
      exact hfresh.stored
    · rw [happended.written]
      exact hfresh.written
    · rw [hnodes i hfi]
      exact hfresh.nlinks
  · rw [hcached'] at hi
    exact h.pos hi

-- ======================================================= other calls

/-- Nothing of the inodes and of the blocks that are given out changes. -/
theorem Sound.congr (h : Sound held s) (hnext : t.nextIno = s.nextIno)
    (hsuper : t.super = s.super) (hninos : t.ninos = s.ninos)
    (hinodes : t.inodes = s.inodes) (hcaches : t.caches = s.caches)
    (hblocks : t.blocks = s.blocks) (hstored : t.stored = s.stored)
    (hwritten : ∀ i, ¬ s.Cached i → t.written i = s.written i)
    (hnodes : ∀ i, (t.nodes i) = { s.nodes i with
      din := { (s.nodes i).din with nlinks := (t.nodes i).din.nlinks } })
    (hnlinks : ∀ i, (t.nodes i).din.nlinks < 256 ^ 2)
    (hfresh : ∀ i, ¬ s.Cached i →
      (t.nodes i).din.nlinks = (s.nodes i).din.nlinks) :
    Sound held t := by
  have hcached : t.Cached = s.Cached := cached_congr hinodes
  have hbuf : ∀ c, t.Buffered c ↔ s.Buffered c := by
    intro c
    unfold Image.Buffered
    rw [hblocks]
  have htarget : ∀ i, t.view.target i = s.view.target i := by
    intro i
    funext p
    refine View.target_congr ?_ ?_ ?_ fun d w => ?_
    · show (t.nodes i).din.direct = _
      rw [hnodes]
      rfl
    · show (t.nodes i).din.indirect = _
      rw [hnodes]
      rfl
    · show (t.nodes i).dbIndirect = _
      rw [hnodes]
      rfl
    · show (if d = 0 then 0 else t.caches d w) = if d = 0 then 0 else s.caches d w
      rw [hcaches]
  refine ⟨?_, fun {i} hi => ?_, fun {i} hi => ?_, ?_, ?_, fun {i k} hi => ?_,
    fun {c k} hc => ?_, fun {i} hi => ?_, fun {i} hi => ?_⟩
  · rw [hcached]
    refine h.placed.count (t := t) (k := 0) ⟨hninos, hnext, by rw [hsuper]; rfl⟩
      h.placed.next_le (h.placed.owned.congr (fun i _ p => ?_) (fun _ => Iff.rfl)
        hbuf)
    rw [htarget]
  · rw [hcached] at hi
    have hfilled := h.filled hi
    rw [htarget, hnodes, hstored]
    exact ⟨hfilled.nblks, hfilled.blocks, hfilled.le, hfilled.pos, hfilled.data,
      hfilled.indirect, hfilled.dbIndirect, hfilled.dbEntry, hfilled.l1,
      hfilled.l2⟩
  · rw [hcached] at hi
    have hfits := h.fits hi
    have hlt := hnlinks i
    rw [hnodes] at hlt ⊢
    exact ⟨hfits.size, hfits.type, hlt⟩
  · rw [hninos]
    exact h.ninos_le
  · rw [hsuper, hninos]
    exact h.super
  · rw [hinodes] at hi
    rw [hnodes]
    exact h.inodes hi
  · rw [hblocks] at hc
    exact h.blocks hc
  · rw [hcached] at hi
    have hnew := h.fresh hi
    refine ⟨?_, ?_, ?_⟩
    · rw [hstored]
      exact hnew.stored
    · rw [hwritten i hi]
      exact hnew.written
    · rw [hfresh i hi]
      exact hnew.nlinks
  · rw [hcached] at hi
    exact h.pos hi

theorem Sound.taken (h : Sound held s) (hlt : s.nextIno < s.ninos) :
    Sound (insert s.nextIno held) s.taken :=
  ⟨h.placed.alloc hlt, h.filled, h.fits, h.ninos_le,
    by rw [show s.taken.super = { s.super with
      unusedBlocks := s.super.unusedBlocks - 1 } from rfl, h.super]; rfl,
    h.inodes, h.blocks, fun hi => ⟨(h.fresh hi).stored, (h.fresh hi).written,
      (h.fresh hi).nlinks⟩, h.pos⟩

theorem Sound.nlinks_lt (h : Sound held s) (i : Nat) :
    (s.nodes i).din.nlinks < 256 ^ 2 := by
  by_cases hi : s.Cached i
  · exact (h.fits hi).nlinks
  · rw [(h.fresh hi).nlinks]
    decide

/-- The image with a block written. -/
def Image.withBlock (s : Image) (b : Nat) (data : Nat → UInt8) : Image :=
  { s with disk := Function.update s.disk b data }

theorem writeBlock_run {data : Nat → UInt8}
    (hrun : writeBlock data size b s = some ((), t)) :
    size ≤ sfsBlksize ∧ b < s.ninos
      ∧ t = s.withBlock b fun k => if k < size then data k else 0 := by
  unfold writeBlock at hrun
  rw [Call.bind_get_eq, Call.bind_assert_eq_some, Call.modify_eq_some] at hrun
  obtain ⟨⟨hsize, hb⟩, ht⟩ := hrun
  exact ⟨hsize, hb, ht⟩

theorem Sound.withBlock (h : Sound held s) (b : Nat) (data : Nat → UInt8) :
    Sound held (s.withBlock b data) :=
  h.congr rfl rfl rfl rfl rfl rfl rfl (fun _ _ => rfl) (fun _ => rfl)
    h.nlinks_lt fun _ _ => rfl

-- ============================================================ blocks

/-- Blocks `bs` come to an inode, for `n` bytes. -/
structure Extended (file : Nat) (bs : List Nat) (n : Nat) (s t : Image) :
    Prop where
  next_le : s.nextIno ≤ t.nextIno
  info : t.super.info = s.super.info
  ninos : t.ninos = s.ninos
  inodes : t.inodes = s.inodes
  disk : ∀ b, b < s.nextIno → t.disk b = s.disk b
  written : t.written = s.written
  stored : t.stored = Function.update s.stored file (s.stored file ++ bs)
  real : ∀ j, (t.nodes j).real = (s.nodes j).real
  type : ∀ j, (t.nodes j).din.type = (s.nodes j).din.type
  nlinks : ∀ j, (t.nodes j).din.nlinks = (s.nodes j).din.nlinks
  sizes : ∀ j, j ≠ file → (t.nodes j).din.size = (s.nodes j).din.size
  size : (t.nodes file).din.size = ((s.nodes file).din.size + n) % 2 ^ 32

/-- A block is written, and stored at the end of an inode. -/
theorem storeBlock_spec {data : Nat → UInt8} (h : Sound held s)
    (hfile : s.Cached file)
    (hrun : (do
      let ino ← sfsAllocIno
      writeBlock data size ino
      appendBlock file size ino : MksfsM Unit) s = some ((), t)) :
    Sound held t ∧ Extended file [s.nextIno] size s t ∧ s.nextIno < t.nextIno
      ∧ t.disk s.nextIno = fun k => if k < size then data k else 0 := by
  obtain ⟨b, s₁, halloc, hrun⟩ := Call.bind_eq_some.1 hrun
  obtain ⟨hlt, rfl, rfl⟩ := sfsAllocIno_run halloc
  obtain ⟨_, s₂, hwrite, happend⟩ := Call.bind_eq_some.1 hrun
  obtain ⟨-, -, hs₂⟩ := writeBlock_run hwrite
  have hsound₂ : Sound (insert s.nextIno held) s₂ := by
    rw [hs₂]
    exact (h.taken hlt).withBlock _ _
  have hcached₂ : s₂.Cached = s.Cached := cached_congr (by rw [hs₂]; rfl)
  obtain ⟨hsound, happended⟩ := appendBlock_spec hsound₂ h.placed.notMem
    (by rw [hcached₂]; exact hfile) happend
  have hnext₂ : s₂.nextIno = s.nextIno + 1 := by
    rw [hs₂]
    rfl
  have hnext := happended.next_le
  have hnodes₂ : s₂.nodes = s.nodes := by
    rw [hs₂]
    rfl
  have hkind : ∀ j, (t.nodes j).real = (s.nodes j).real
      ∧ (t.nodes j).din.type = (s.nodes j).din.type
      ∧ (t.nodes j).din.nlinks = (s.nodes j).din.nlinks := by
    intro j
    rw [← hnodes₂]
    by_cases hj : j = file
    · rw [hj]
      exact ⟨happended.real, happended.type, happended.nlinks⟩
    · rw [happended.nodes j hj]
      exact ⟨rfl, rfl, rfl⟩
  refine ⟨hsound, ⟨by omega, ?_, ?_, ?_, fun b hb => ?_, ?_, ?_,
    fun j => (hkind j).1, fun j => (hkind j).2.1, fun j => (hkind j).2.2,
    fun j hj => ?_, ?_⟩, by omega, ?_⟩
  · rw [happended.info, hs₂]
    rfl
  · rw [happended.ninos, hs₂]
    rfl
  · rw [happended.inodes, hs₂]
    rfl
  · rw [happended.disk, hs₂]
    exact Function.update_of_ne (Nat.ne_of_lt hb) ..
  · rw [happended.written, hs₂]
    rfl
  · rw [happended.stored, hs₂]
    rfl
  · rw [happended.nodes j hj, hnodes₂]
  · rw [happended.size, hnodes₂]
  · rw [happended.disk, hs₂]
    exact Function.update_self ..

-- ======================================================== new inodes

/-- The image with a new inode. -/
def Image.withInode (s : Image) (i real type : Nat) : Image := { s with
  nodes := Function.update s.nodes i (newInode real type)
  inodes := Function.update s.inodes (hash32 real)
    (i :: s.inodes (hash32 real)) }

theorem allocCacheInode_run {real type : Nat}
    (hrun : allocCacheInode real 0 type s = some (r, t)) :
    s.nextIno < s.ninos ∧ r = s.nextIno
      ∧ t = s.taken.withInode s.nextIno real type := by
  unfold allocCacheInode at hrun
  rw [if_neg (not_not_intro rfl)] at hrun
  obtain ⟨number, s₁, halloc, hrest⟩ := Call.bind_eq_some.1 hrun
  obtain ⟨hlt, rfl, rfl⟩ := sfsAllocIno_run halloc
  dsimp only at hrest
  rw [Call.bind_modify_eq] at hrest
  obtain ⟨rfl, rfl⟩ := Call.pure_eq_some.1 hrest
  exact ⟨hlt, rfl, rfl⟩

theorem cached_withInode {real type : Nat} :
    (s.withInode i real type).Cached j ↔ s.Cached j ∨ j = i := exists_mem_push

theorem withInode_node {real type : Nat} :
    (s.withInode i real type).nodes i = newInode real type :=
  Function.update_self ..

theorem withInode_node_ne {real type : Nat} (hj : j ≠ i) :
    (s.withInode i real type).nodes j = s.nodes j := Function.update_of_ne hj ..

/-- A new inode stands at no place but its own. -/
theorem target_withInode {real type : Nat} {p : Place} (hp : p ≠ .self) :
    (s.withInode i real type).view.target i p = 0 := by
  have hdin : (s.withInode i real type).view.din i = (newInode real type).din :=
    congrArg CacheInode.din withInode_node
  have hdb : (s.withInode i real type).view.dbIndirect i = 0 :=
    congrArg CacheInode.dbIndirect (withInode_node (s := s))
  cases p with
  | self => exact absurd rfl hp
  | indirect => exact congrArg DiskInode.indirect hdin
  | dbIndirect => exact hdb
  | dbEntry a =>
      show (if _ then _ else _) = 0
      rw [hdb, View.wordAt_zero, ite_self]
  | data n =>
      show View.dataAt _ i n = 0
      unfold View.dataAt
      rw [hdin, hdb]
      show (if _ then 0 else if _ then View.wordAt _ 0 _ else _) = 0
      rw [View.wordAt_zero, View.wordAt_zero, View.wordAt_zero]
      simp

theorem target_withInode_ne {real type : Nat} (hj : j ≠ i) (p : Place) :
    (s.withInode i real type).view.target j p = s.view.target j p := by
  have hnode : (s.withInode i real type).nodes j = s.nodes j :=
    withInode_node_ne hj
  refine View.target_congr ?_ ?_ ?_ fun _ _ => rfl
  · exact congrArg (fun ci => ci.din.direct) hnode
  · exact congrArg (fun ci => ci.din.indirect) hnode
  · exact congrArg (fun ci => ci.dbIndirect) hnode

/-- An inode is made of a block in hand. -/
theorem Sound.withInode {real type : Nat} (h : Sound (insert b held) s)
    (hb : b ∉ held) (htype : type < 256 ^ 2) :
    Sound held (s.withInode b real type) := by
  have hne : b ≠ 0 := by
    have hrange := h.placed.owned.held_range (Finset.mem_insert_self b held)
    have hroot := root_lt_first s.ninos
    have hpos : 0 < sfsBlknRoot := by decide
    omega
  have hnew : ¬ s.Cached b := fun hin =>
    h.placed.owned.target_ne (Finset.mem_insert_self b held) hin .self hne rfl
  have hfresh := h.fresh hnew
  have hold : ∀ i, s.Cached i → i ≠ b := fun i hi heq => hnew (heq ▸ hi)
  refine ⟨?_, fun {i} hi => ?_, fun {i} hi => ?_, h.ninos_le, h.super,
    fun {i k} hi => ?_, h.blocks, fun {i} hi => ?_, fun {i} hi => ?_⟩
  · refine h.placed.count (t := s.withInode b real type) (k := 0) ⟨rfl, rfl, rfl⟩
      h.placed.next_le ?_
    refine Owned.congr (v := (s.withInode b real type).view)
      (h.placed.owned.inode hb hne (fun p hp => target_withInode hp)
      (fun i hi p => target_withInode_ne (hold i hi) p) (fun i => cached_withInode))
      (fun _ _ _ => rfl) (fun _ => Iff.rfl) fun _ => Iff.rfl
  · rcases cached_withInode.1 hi with hi | rfl
    · have hfilled := h.filled hi
      have hsame : (s.withInode b real type).view.target i = s.view.target i :=
        funext fun p => target_withInode_ne (hold i hi) p
      rw [hsame, withInode_node_ne (hold i hi)]
      exact hfilled
    · rw [withInode_node, show (s.withInode i real type).stored i = [] from
        hfresh.stored]
      refine ⟨rfl, rfl, Nat.zero_le _, List.not_mem_nil, fun n => ?_, ?_, ?_,
        fun a => ?_, fun hlo => ?_, fun hlo => ?_⟩
      · exact target_withInode fun h => by cases h
      · rw [target_withInode fun h => by cases h]
        exact ⟨fun h => absurd rfl h, fun h => absurd h (Nat.not_lt_zero _)⟩
      · rw [target_withInode fun h => by cases h]
        exact ⟨fun h => absurd rfl h, fun h => absurd h (Nat.not_lt_zero _)⟩
      · rw [target_withInode fun h => by cases h]
        exact ⟨fun h => absurd rfl h, fun h => absurd h (Nat.not_lt_zero _)⟩
      · exact absurd hlo (Nat.not_lt_zero _)
      · exact absurd hlo (Nat.not_lt_zero _)
  · rcases cached_withInode.1 hi with hi | rfl
    · rw [withInode_node_ne (hold i hi)]
      exact h.fits hi
    · rw [withInode_node]
      exact ⟨(by decide : 0 < 256 ^ 4), htype, (by decide : 0 < 256 ^ 2)⟩
  · by_cases hib : i = b
    · subst hib
      rw [withInode_node]
      show k = hash32 real
      by_contra hk
      have hin : i ∈ s.inodes k := by
        have hi' : i ∈ (Function.update s.inodes (hash32 real) _) k := hi
        rwa [Function.update_of_ne hk] at hi'
      exact hnew ⟨k, hin⟩
    · rw [withInode_node_ne hib]
      have hi' : i ∈ (Function.update s.inodes (hash32 real) _) k := hi
      rw [Function.update_apply] at hi'
      split at hi'
      case isFalse => exact h.inodes hi'
      case isTrue hk =>
          rcases List.mem_cons.1 hi' with heq | hin
          · exact absurd heq hib
          · rw [hk]
            exact h.inodes hin
  · have hi' : ¬ s.Cached i := fun hin => hi (cached_withInode.2 (Or.inl hin))
    have hib : i ≠ b := fun heq => hi (cached_withInode.2 (Or.inr heq))
    have hnew' := h.fresh hi'
    refine ⟨hnew'.stored, hnew'.written, ?_⟩
    rw [withInode_node_ne hib]
    exact hnew'.nlinks
  · rcases cached_withInode.1 hi with hi | rfl
    · exact h.pos hi
    · exact hne

-- =========================================================== entries

/-- What `add_entry` does to an image. -/
structure Entered (current file : Nat) (name : List UInt8) (s t : Image) :
    Prop where
  dir : (s.nodes current).din.type = sfsTypeDir
  length : name.length ≤ sfsMaxFnameLen
  next_lt : s.nextIno < t.nextIno
  info : t.super.info = s.super.info
  ninos : t.ninos = s.ninos
  inodes : t.inodes = s.inodes
  disk : ∀ b, b < s.nextIno → t.disk b = s.disk b
  block : t.disk s.nextIno = fun k => if k < sizeofName
    then entryBytes file (copyName s.entryName name) k else 0
  stored : t.stored
    = Function.update s.stored current (s.stored current ++ [s.nextIno])
  written : t.written
    = Function.update s.written current (s.written current ++ [(name, file)])
  real : ∀ j, (t.nodes j).real = (s.nodes j).real
  type : ∀ j, (t.nodes j).din.type = (s.nodes j).din.type
  nlinks : ∀ j, (t.nodes j).din.nlinks = if j = file
    then ((s.nodes j).din.nlinks + 1) % 2 ^ 16 else (s.nodes j).din.nlinks
  size : ∀ j, j ≠ current → (t.nodes j).din.size = (s.nodes j).din.size

/-- The inode with a link more. -/
def CacheInode.linked (ci : CacheInode) : CacheInode := { ci with
  din := { ci.din with nlinks := (ci.din.nlinks + 1) % 2 ^ 16 } }

theorem Sound.linked (h : Sound held s) (hfile : s.Cached file) {current : Nat}
    (hcurrent : s.Cached current) {w : List (List UInt8 × Nat)} :
    Sound held { s.withNode file (s.nodes file).linked with
      written := Function.update s.written current w } := by
  refine h.congr rfl rfl rfl rfl rfl rfl rfl (fun i hi => ?_) (fun i => ?_)
    (fun i => ?_) fun i hi => ?_
  · have hne : i ≠ current := fun heq => hi (heq ▸ hcurrent)
    exact Function.update_of_ne hne ..
  · by_cases hi : i = file
    · subst hi
      rw [show Image.nodes _ i = (s.nodes i).linked from withNode_self]
      rfl
    · rw [show Image.nodes _ i = s.nodes i from Function.update_of_ne hi ..]
  · by_cases hi : i = file
    · subst hi
      rw [show Image.nodes _ i = (s.nodes i).linked from withNode_self]
      exact Nat.mod_lt _ (by decide)
    · rw [show Image.nodes _ i = s.nodes i from Function.update_of_ne hi ..]
      exact h.nlinks_lt i
  · have hne : i ≠ file := fun heq => hi (heq ▸ hfile)
    rw [show Image.nodes _ i = s.nodes i from Function.update_of_ne hne ..]

theorem addEntry_spec {current : Nat} {name : List UInt8} (h : Sound held s)
    (hcurrent : s.Cached current) (hfile : s.Cached file)
    (hrun : addEntry current file name s = some ((), t)) :
    Sound held t ∧ Entered current file name s t := by
  unfold addEntry getNode at hrun
  rw [Call.bind_of_eq (a := s.nodes current) (t := s)] at hrun
  case h => rfl
  rw [Call.bind_assert_eq_some, Call.bind_modify_eq] at hrun
  obtain ⟨⟨hdir, hlength⟩, hrun⟩ := hrun
  obtain ⟨b, s₂, halloc, hrun⟩ := Call.bind_eq_some.1 hrun
  rw [Call.bind_get_eq] at hrun
  obtain ⟨_, s₃, hwrite, hrun⟩ := Call.bind_eq_some.1 hrun
  obtain ⟨_, s₄, happend, hrun⟩ := Call.bind_eq_some.1 hrun
  rw [Call.bind_of_eq (a := s₄.nodes file) (t := s₄)] at hrun
  case h => rfl
  unfold setNode at hrun
  rw [Call.bind_modify_eq, Call.modify_eq_some] at hrun
  have hname : s₂.entryName = copyName s.entryName name := by
    obtain ⟨-, -, hs₂⟩ := sfsAllocIno_run halloc
    rw [hs₂]
    rfl
  rw [hname] at hwrite
  have hsound₁ : Sound held { s with entryName := copyName s.entryName name } :=
    h.congr rfl rfl rfl rfl rfl rfl rfl (fun _ _ => rfl) (fun _ => rfl)
      h.nlinks_lt fun _ _ => rfl
  obtain ⟨hsound₄, hext, hlt, hblock⟩ := storeBlock_spec hsound₁ hcurrent
    (Call.bind_eq_some.2 ⟨b, s₂, halloc,
      Call.bind_eq_some.2 ⟨(), s₃, hwrite, happend⟩⟩)
  have hcached₄ : s₄.Cached = s.Cached := cached_congr hext.inodes
  have hnode : t.nodes file = (s₄.nodes file).linked := by
    rw [hrun]
    exact withNode_self
  have hnodes : ∀ j, j ≠ file → t.nodes j = s₄.nodes j := by
    intro j hj
    rw [hrun]
    exact Function.update_of_ne hj ..
  have hdisk : t.disk = s₄.disk := by rw [hrun]
  constructor
  · rw [hrun]
    exact hsound₄.linked (by rw [hcached₄]; exact hfile)
      (by rw [hcached₄]; exact hcurrent)
  · refine ⟨hdir, hlength, ?_, ?_, ?_, ?_, fun c hc => ?_, ?_, ?_, ?_,
      fun j => ?_, fun j => ?_, fun j => ?_, fun j hj => ?_⟩
    · rw [hrun]
      exact hlt
    · rw [hrun, hext.info]
    · rw [hrun, hext.ninos]
    · rw [hrun, hext.inodes]
    · rw [hdisk]
      exact hext.disk c hc
    · rw [hdisk]
      exact hblock
    · rw [hrun]
      exact hext.stored
    · rw [hrun, hext.written]
    · rw [← show _ = (s.nodes j).real from hext.real j]
      by_cases hj : j = file
      · rw [hj, hnode]
        rfl
      · rw [hnodes j hj]
    · rw [← show _ = (s.nodes j).din.type from hext.type j]
      by_cases hj : j = file
      · rw [hj, hnode]
        rfl
      · rw [hnodes j hj]
    · rw [← show _ = (s.nodes j).din.nlinks from hext.nlinks j]
      by_cases hj : j = file
      · rw [if_pos hj, hj, hnode]
        rfl
      · rw [if_neg hj, hnodes j hj]
    · rw [← show _ = (s.nodes j).din.size from hext.sizes j hj]
      by_cases hjf : j = file
      · rw [hjf, hnode]
        rfl
      · rw [hnodes j hjf]

end Ucore.Mksfs
