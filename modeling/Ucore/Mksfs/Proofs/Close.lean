/-
`close_sfs`: the free map, the super block and what is cached are written, each
block once.

What is on disk when mksfs is done: the places of the inodes are read from it as
they were in memory, and the free map and the super block say which blocks are
unused.
-/
import Ucore.Mksfs.Proofs.Walk

namespace Ucore.Mksfs

open Sfs

variable {s t u : Image} {held : Finset Nat} {b c i j k n size : Nat}
  {p q : Nat → Prop} {f : Nat → Nat → UInt8}

-- =========================================================== writing

/-- The blocks `p` are written, and nothing else happens. -/
structure Writes (f : Nat → Nat → UInt8) (p : Nat → Prop) (s t : Image) :
    Prop where
  rest : t = { s with disk := t.disk }
  block : ∀ b, p b → t.disk b = f b
  other : ∀ b, ¬ p b → t.disk b = s.disk b

namespace Writes

theorem refl (hp : ∀ b, ¬ p b) : Writes f p s s :=
  ⟨rfl, fun b hb => absurd hb (hp b), fun _ _ => rfl⟩

theorem trans (h : Writes f p s t) (h' : Writes f q t u) :
    Writes f (fun b => p b ∨ q b) s u := by
  refine ⟨?_, fun b hb => ?_, fun b hb => ?_⟩
  · rw [h'.rest, h.rest]
  · by_cases hq : q b
    · exact h'.block b hq
    · rw [h'.other b hq]
      exact h.block b (hb.resolve_right hq)
  · rw [h'.other b fun hq => hb (Or.inr hq)]
    exact h.other b fun hp => hb (Or.inl hp)

theorem mono (h : Writes f p s t) (hq : ∀ b, q b ↔ p b) :
    Writes f q s t :=
  ⟨h.rest, fun b hb => h.block b ((hq b).1 hb),
    fun b hb => h.other b fun hp => hb ((hq b).2 hp)⟩

end Writes

/-- The first `len` bytes of a block, and zeros. -/
def padded (len : Nat) (data : Nat → UInt8) (k : Nat) : UInt8 :=
  if k < len then data k else 0

theorem writeBlock_writes {data : Nat → UInt8} (hval : f b = padded size data)
    (hrun : writeBlock data size b s = some ((), t)) :
    Writes f (fun b' => b' = b) s t := by
  obtain ⟨-, -, ht⟩ := writeBlock_run hrun
  rw [ht]
  refine ⟨rfl, fun b' hb' => ?_, fun b' hb' => ?_⟩
  · rw [hb', hval]
    exact Function.update_self ..
  · exact Function.update_of_ne hb' ..

theorem flushCacheBlocks_writes : ∀ {l : List Nat} {s : Image},
    (∀ c ∈ l, f c = padded sfsBlksize (cacheBytes (s.caches c))) →
    flushCacheBlocks l s = some ((), t) → Writes f (fun b => b ∈ l) s t := by
  intro l
  induction l with
  | nil =>
      intro s _ hrun
      rw [flushCacheBlocks, Call.pure_eq_some] at hrun
      rw [hrun.2]
      exact Writes.refl fun b hb => by cases hb
  | cons c l ih =>
      intro s hval hrun
      rw [flushCacheBlocks, Call.bind_get_eq] at hrun
      obtain ⟨_, s₁, hwrite, hrest⟩ := Call.bind_eq_some.1 hrun
      have hfirst := writeBlock_writes (hval c List.mem_cons_self) hwrite
      refine (hfirst.trans (ih (fun c hc => ?_) hrest)).mono fun b =>
        List.mem_cons
      rw [hfirst.rest]
      exact hval c (List.mem_cons_of_mem _ hc)

theorem flushCacheInodes_writes : ∀ {l : List Nat} {s : Image},
    (∀ i ∈ l, f i = padded sizeofInode (s.nodes i).toBytes) →
    flushCacheInodes l s = some ((), t) → Writes f (fun b => b ∈ l) s t := by
  intro l
  induction l with
  | nil =>
      intro s _ hrun
      rw [flushCacheInodes, Call.pure_eq_some] at hrun
      rw [hrun.2]
      exact Writes.refl fun b hb => by cases hb
  | cons i l ih =>
      intro s hval hrun
      rw [flushCacheInodes] at hrun
      unfold getNode at hrun
      rw [Call.bind_of_eq (a := s.nodes i) (t := s)] at hrun
      case h => rfl
      obtain ⟨_, s₁, hwrite, hrest⟩ := Call.bind_eq_some.1 hrun
      have hfirst := writeBlock_writes (hval i List.mem_cons_self) hwrite
      refine (hfirst.trans (ih (fun i hi => ?_) hrest)).mono fun b =>
        List.mem_cons
      rw [hfirst.rest]
      exact hval i (List.mem_cons_of_mem _ hi)

/-- A block that a bucket of the two tables holds. -/
def InBucket (s : Image) (k b : Nat) : Prop := b ∈ s.blocks k ∨ b ∈ s.inodes k

theorem flushCaches_writes : ∀ {n i : Nat} {s : Image},
    (∀ k, ∀ c ∈ s.blocks k,
      f c = padded sfsBlksize (cacheBytes (s.caches c))) →
    (∀ k, ∀ c ∈ s.inodes k,
      f c = padded sizeofInode (s.nodes c).toBytes) →
    flushCaches n i s = some ((), t) →
    Writes f (fun b => ∃ k, i ≤ k ∧ k < i + n ∧ InBucket s k b) s t := by
  intro n
  induction n with
  | zero =>
      intro i s _ _ hrun
      rw [flushCaches, Call.pure_eq_some] at hrun
      rw [hrun.2]
      refine Writes.refl ?_
      rintro b ⟨k, hlo, hhi, -⟩
      omega
  | succ n ih =>
      intro i s hblocks hinodes hrun
      rw [flushCaches, Call.bind_get_eq] at hrun
      obtain ⟨_, s₁, hflush, hrun⟩ := Call.bind_eq_some.1 hrun
      obtain ⟨_, s₂, hflush', hrest⟩ := Call.bind_eq_some.1 hrun
      have hfirst := flushCacheBlocks_writes (hblocks i) hflush
      have hsecond := flushCacheInodes_writes (f := f) (fun c hc => by
        rw [hfirst.rest]
        exact hinodes i c hc) hflush'
      have hboth := hfirst.trans hsecond
      have hlater := ih (i := i + 1) (s := s₂) (fun k c hc => by
        rw [hboth.rest] at hc ⊢
        exact hblocks k c hc) (fun k c hc => by
        rw [hboth.rest] at hc ⊢
        exact hinodes k c hc) hrest
      refine (hboth.trans hlater).mono fun b => ?_
      have hbucket : ∀ k, InBucket s₂ k b ↔ InBucket s k b := by
        intro k
        rw [hboth.rest]
        exact Iff.rfl
      simp only [hbucket]
      constructor
      · rintro ⟨k, hlo, hhi, hin⟩
        by_cases hk : k = i
        · subst hk
          exact Or.inl hin
        · exact Or.inr ⟨k, by omega, by omega, hin⟩
      · rintro (hin | ⟨k, hlo, hhi, hin⟩)
        · exact ⟨i, Nat.le_refl _, by omega, hin⟩
        · exact ⟨k, by omega, by omega, hin⟩

theorem writeFreemap_writes : ∀ {n j : Nat} {s : Image},
    (∀ m, m < j + n → f (sfsBlknFreemap + m) = padded sfsBlksize
      (cacheBytes fun ix =>
        (freemapWords s.ninos s.nextIno (m * sfsBlkbits) ix).toNat)) →
    writeFreemap n j s = some ((), t) →
    Writes f (fun b => sfsBlknFreemap + j ≤ b ∧ b < sfsBlknFreemap + j + n)
      s t := by
  intro n
  induction n with
  | zero =>
      intro j s _ hrun
      rw [writeFreemap, Call.pure_eq_some] at hrun
      rw [hrun.2]
      refine Writes.refl ?_
      rintro b ⟨hlo, hhi⟩
      omega
  | succ n ih =>
      intro j s hval hrun
      rw [writeFreemap, Call.bind_get_eq] at hrun
      obtain ⟨_, s₁, hwrite, hrest⟩ := Call.bind_eq_some.1 hrun
      have hfirst := writeBlock_writes (hval j (by omega)) hwrite
      have hlater := ih (j := j + 1) (s := s₁) (fun m hm => by
        rw [hfirst.rest]
        exact hval m (by omega)) hrest
      refine (hfirst.trans hlater).mono fun b => ?_
      omega

-- =========================================================== closing

/-- What is written of an image. -/
structure Closed (f : Nat → Nat → UInt8) (s : Image) : Prop where
  super : f sfsBlknSuper = s.super.toBytes
  freemap : ∀ m, sfsBlknFreemap + m < firstIno s.ninos →
    f (sfsBlknFreemap + m) = padded sfsBlksize (cacheBytes fun ix =>
      (freemapWords s.ninos s.nextIno (m * sfsBlkbits) ix).toNat)
  block : ∀ c, s.Buffered c → f c = padded sfsBlksize (cacheBytes (s.caches c))
  inode : ∀ i, s.Cached i → f i = padded sizeofInode (s.nodes i).toBytes

theorem hash32_lt (x : Nat) : hash32 x < hashListSize := by
  have hlt : x % 2 ^ 32 * 0x9e370001 % 2 ^ 32 < 2 ^ 32 :=
    Nat.mod_lt _ (Nat.two_pow_pos 32)
  have hsize : 2 ^ (32 - hashShift) * hashListSize = 2 ^ 32 := by
    decide
  apply Nat.div_lt_of_lt_mul
  rw [hsize]
  exact hlt

theorem padded_super (super : SfsSuper) :
    padded sizeofSuper super.toBytes = super.toBytes := by
  funext k
  unfold padded sizeofSuper SfsSuper.toBytes
  split
  case isTrue => rfl
  case isFalse hk =>
      rw [if_neg (by omega), if_neg (by omega), if_neg (by omega)]

/-- The blocks that `close_sfs` writes. -/
def Image.Flushed (s : Image) (b : Nat) : Prop :=
  b = sfsBlknSuper ∨ (sfsBlknFreemap ≤ b ∧ b < firstIno s.ninos)
    ∨ s.Buffered b ∨ s.Cached b

theorem closeSfs_writes (h : Sound held s) (hval : Closed f s)
    (hrun : closeSfs s = some ((), t)) : Writes f s.Flushed s t := by
  rw [closeSfs, Call.bind_get_eq] at hrun
  obtain ⟨_, s₁, hfreemap, hrun⟩ := Call.bind_eq_some.1 hrun
  rw [Call.bind_get_eq] at hrun
  obtain ⟨_, s₂, hsuper, hflush⟩ := Call.bind_eq_some.1 hrun
  have hfirst : sfsBlknFreemap + roundupDiv s.ninos sfsBlkbits
      = firstIno s.ninos := by
    unfold firstIno roundupDiv
    rfl
  have hwrites₁ := writeFreemap_writes (f := f) (fun m hm =>
    hval.freemap m (by omega)) hfreemap
  have hwrites₂ := writeBlock_writes (f := f) (by
    rw [hwrites₁.rest, padded_super]
    exact hval.super) hsuper
  have hwrites := hwrites₁.trans hwrites₂
  have hwrites₃ := flushCaches_writes (f := f) (fun k c hc => by
    rw [hwrites.rest] at hc ⊢
    exact hval.block c ⟨k, hc⟩) (fun k c hc => by
    rw [hwrites.rest] at hc ⊢
    exact hval.inode c ⟨k, hc⟩) hflush
  refine (hwrites.trans hwrites₃).mono fun b => ?_
  have hbucket : ∀ k, InBucket s₂ k b ↔ InBucket s k b := by
    intro k
    rw [hwrites.rest]
    exact Iff.rfl
  have htables : (∃ k, 0 ≤ k ∧ k < 0 + hashListSize ∧ InBucket s k b)
      ↔ s.Buffered b ∨ s.Cached b := by
    constructor
    · rintro ⟨k, -, -, hin | hin⟩
      · exact Or.inl ⟨k, hin⟩
      · exact Or.inr ⟨k, hin⟩
    · have hlt := hash32_lt
      rintro (⟨k, hk⟩ | ⟨k, hk⟩)
      · refine ⟨k, Nat.zero_le _, ?_, Or.inl hk⟩
        rw [h.blocks hk, Nat.zero_add]
        exact hlt _
      · refine ⟨k, Nat.zero_le _, ?_, Or.inr hk⟩
        rw [h.inodes hk, Nat.zero_add]
        exact hlt _
  simp only [hbucket, htables, Image.Flushed, ← hfirst, Nat.add_zero]
  rw [or_left_comm, or_assoc]

-- ==================================================== the last image

theorem Sound.buffered_range (h : Sound held s) (hc : s.Buffered c) :
    c ≠ 0 ∧ (firstIno s.ninos ≤ c ∧ c < s.nextIno ∨ c = sfsBlknRoot) := by
  obtain ⟨x, -, hx⟩ := h.placed.owned.buf_iff.1 hc
  exact ⟨hx.2.2, h.placed.owned.exact.used_iff.2 (Or.inl ⟨x, hx⟩)⟩

/-- No inode is a block of block numbers. -/
theorem Sound.not_buffered (h : Sound held s) (hi : s.Cached i) :
    ¬ s.Buffered i := by
  intro hbuf
  obtain ⟨x, hmeta, hx⟩ := h.placed.owned.buf_iff.1 hbuf
  have heq := h.placed.owned.exact.inj hx (y := (i, .self)) ⟨hi, rfl, h.pos hi⟩
  rw [heq] at hmeta
  exact hmeta

open Classical in
/-- What `close_sfs` leaves in a block that it writes. -/
noncomputable def Image.content (s : Image) (b : Nat) : Nat → UInt8 :=
  if b = sfsBlknSuper then s.super.toBytes
  else if sfsBlknFreemap ≤ b ∧ b < firstIno s.ninos then
    padded sfsBlksize (cacheBytes fun ix => (freemapWords s.ninos s.nextIno
      ((b - sfsBlknFreemap) * sfsBlkbits) ix).toNat)
  else if s.Buffered b then padded sfsBlksize (cacheBytes (s.caches b))
  else padded sizeofInode (s.nodes b).toBytes

/-- A block has one content. -/
theorem Sound.closed (h : Sound held s) : Closed s.content s := by
  have hroot := root_lt_first s.ninos
  have hsuper : sfsBlknSuper = 0 := rfl
  have hone : sfsBlknRoot = 1 := rfl
  have hmap : sfsBlknFreemap = 2 := rfl
  refine ⟨if_pos rfl, fun m hm => ?_, fun c hc => ?_, fun i hi => ?_⟩
  · unfold Image.content
    rw [if_neg (by omega), if_pos ⟨by omega, hm⟩, Nat.add_sub_cancel_left]
  · obtain ⟨hne, hrange⟩ := h.buffered_range hc
    unfold Image.content
    rw [if_neg (by omega), if_neg (by omega), if_pos hc]
  · have hne := h.pos hi
    have hrange := h.cached_range hi
    unfold Image.content
    rw [if_neg (by omega), if_neg (by omega), if_neg (h.not_buffered hi)]

/-- What `close_sfs` leaves. -/
theorem closeSfs_spec (h : Sound held s)
    (hrun : closeSfs s = some ((), t)) : t = { s with disk := t.disk }
      ∧ Closed t.disk s ∧ ∀ b, ¬ s.Flushed b → t.disk b = s.disk b := by
  have hclosed := h.closed
  have hwrites := closeSfs_writes h hclosed hrun
  refine ⟨hwrites.rest, ⟨?_, fun m hm => ?_, fun c hc => ?_, fun i hi => ?_⟩,
    hwrites.other⟩
  · rw [hwrites.block _ (Or.inl rfl)]
    exact hclosed.super
  · rw [hwrites.block _ (Or.inr (Or.inl ⟨Nat.le_add_right _ _, hm⟩))]
    exact hclosed.freemap m hm
  · rw [hwrites.block _ (Or.inr (Or.inr (Or.inl hc)))]
    exact hclosed.block c hc
  · rw [hwrites.block _ (Or.inr (Or.inr (Or.inr hi)))]
    exact hclosed.inode i hi

end Ucore.Mksfs

namespace Ucore.Mksfs

open Sfs

variable {s t u : Image} {held : Finset Nat} {disk : Nat → Nat → UInt8}
  {a b c i j k n w size : Nat} {p : Place}

-- ============================================================ places

/-- What a place holds is the number of a block. -/
theorem Sound.target_lt (h : Sound held s) (hi : s.Cached i) (p : Place) :
    s.view.target i p < 256 ^ 4 := by
  by_cases hzero : s.view.target i p = 0
  · rw [hzero]
    decide
  · have hrange := h.placed.owned.exact.used_iff.2
      (Or.inl ⟨(i, p), hi, rfl, hzero⟩)
    dsimp only at hrange
    have hnext := h.placed.next_le
    have hninos := h.ninos_le
    have hmax : sfsMaxNblks < 256 ^ 4 := by decide
    have hone : sfsBlknRoot < 256 ^ 4 := by decide
    omega

/-- The words of a cached block are block numbers. -/
theorem Sound.word_lt (h : Sound held s) (hc : s.Buffered c)
    (hw : w < sfsBlkNentry) : s.caches c w < 256 ^ 4 := by
  obtain ⟨⟨i, p⟩, hmeta, hi, htarget, hne⟩ := h.placed.owned.buf_iff.1 hc
  dsimp only at hmeta hi htarget
  have hword : s.view.wordAt c w = s.caches c w := if_neg hne
  cases p with
  | self => exact absurd hmeta id
  | data n => exact absurd hmeta id
  | indirect =>
      have hlt := h.target_lt hi (.data (sfsL0Nblks + w))
      have hdata : s.view.target i (.data (sfsL0Nblks + w)) = s.view.wordAt c w := by
        show s.view.dataAt i _ = _
        rw [View.dataAt_indirect (Nat.le_add_right _ _) (by
          unfold sfsL1Nblks
          omega), Nat.add_sub_cancel_left, show (s.view.din i).indirect = c from
          htarget]
      rw [← hword, ← hdata]
      exact hlt
  | dbIndirect =>
      have hlt := h.target_lt hi (.dbEntry w)
      rw [View.target_dbEntry hw, show s.view.dbIndirect i = c from htarget,
        hword] at hlt
      exact hlt
  | dbEntry a =>
      have ha : a < sfsBlkNentry := by
        by_contra hge
        rw [show s.view.target i (.dbEntry a) = 0 from if_neg hge] at htarget
        exact hne htarget.symm
      rw [View.target_dbEntry ha] at htarget
      have hlt := h.target_lt hi (.data (sfsL1Nblks + (a * sfsBlkNentry + w)))
      have hdata : s.view.target i (.data (sfsL1Nblks + (a * sfsBlkNentry + w)))
          = s.view.wordAt c w := by
        have hdiv : (a * sfsBlkNentry + w) / sfsBlkNentry = a := by
          unfold sfsBlkNentry sfsBlksize at *
          omega
        have hmod : (a * sfsBlkNentry + w) % sfsBlkNentry = w := by
          unfold sfsBlkNentry sfsBlksize at *
          omega
        have hpast : sfsL1Nblks + (a * sfsBlkNentry + w) < sfsL2Nblks := by
          unfold sfsL2Nblks sfsBlkNentry sfsBlksize at *
          omega
        show s.view.dataAt i _ = _
        rw [View.dataAt_dbIndirect (Nat.le_add_right _ _) hpast,
          Nat.add_sub_cancel_left, hdiv, hmod, htarget]
      rw [← hword, ← hdata]
      exact hlt

theorem Sound.din_fits (h : Sound held s) (hi : s.Cached i) :
    (s.nodes i).din.Fits := by
  have hfits := h.fits hi
  have hfilled := h.filled hi
  refine ⟨hfits.size, hfits.type, hfits.nlinks, ?_, fun k => ?_, ?_⟩
  · have hle := hfilled.le
    have hmax : sfsLnNblks < 256 ^ 4 := by decide
    rw [hfilled.blocks]
    omega
  · have hlt := h.target_lt hi (.data k)
    rw [show s.view.target i (.data k) = _ from View.dataAt_direct k.isLt] at hlt
    exact hlt
  · exact h.target_lt hi .indirect

-- ====================================================== reading back

theorem ofBytes_inode (hfits : (s.nodes i).din.Fits)
    (hdisk : disk i = padded sizeofInode (s.nodes i).toBytes) :
    DiskInode.ofBytes (disk i) = (s.nodes i).din := by
  have hsame : ∀ k, k < sizeofDiskInode →
      disk i k = (s.nodes i).din.toBytes k := by
    intro k hk
    rw [hdisk]
    unfold padded CacheInode.toBytes
    rw [if_pos (Nat.lt_trans hk (by decide)), if_pos hk]
  rw [DiskInode.ofBytes_congr hsame, DiskInode.ofBytes_toBytes hfits]

theorem getWord_dbIndirect (hlt : (s.nodes i).dbIndirect < 256 ^ 4)
    (hdisk : disk i = padded sizeofInode (s.nodes i).toBytes) :
    getWord (disk i) sizeofDiskInode 4 = (s.nodes i).dbIndirect := by
  apply getWord_wordByte hlt
  intro k hk
  rw [hdisk]
  unfold padded CacheInode.toBytes sizeofInode sizeofDiskInode
  rw [if_pos (by omega), if_neg (by omega), Nat.add_sub_cancel_left]

theorem getWord_cache (hlt : s.caches c w < 256 ^ 4) (hw : w < sfsBlkNentry)
    (hdisk : disk c = padded sfsBlksize (cacheBytes (s.caches c))) :
    getWord (disk c) (w * 4) 4 = s.caches c w := by
  apply getWord_wordByte hlt
  intro k hk
  have hdiv : (w * 4 + k) / 4 = w := by omega
  have hmod : (w * 4 + k) % 4 = k := by omega
  rw [hdisk]
  unfold padded cacheBytes
  unfold sfsBlkNentry at hw
  rw [if_pos (by unfold sfsBlksize at *; omega), hdiv, hmod]

/-- The places of an inode are read from the disk. -/
theorem Sound.target_disk (h : Sound held s) (hclosed : Closed disk s)
    (hi : s.Cached i) (p : Place) :
    (diskView disk).target i p = s.view.target i p := by
  have hdin : (diskView disk).din i = s.view.din i :=
    ofBytes_inode (h.din_fits hi) (hclosed.inode i hi)
  have hdb : (diskView disk).dbIndirect i = s.view.dbIndirect i :=
    getWord_dbIndirect (h.target_lt hi .dbIndirect) (hclosed.inode i hi)
  have hword : ∀ q : Place, q.Meta → ∀ w < sfsBlkNentry,
      (diskView disk).wordAt (s.view.target i q) w
        = s.view.wordAt (s.view.target i q) w := by
    intro q hq w hw
    by_cases hzero : s.view.target i q = 0
    · rw [hzero, View.wordAt_zero, View.wordAt_zero]
    · have hbuf : s.Buffered (s.view.target i q) :=
        h.placed.owned.buf_iff.2 ⟨(i, q), hq, hi, rfl, hzero⟩
      unfold View.wordAt
      rw [if_neg hzero, if_neg hzero]
      exact getWord_cache (h.word_lt hbuf hw) hw (hclosed.block _ hbuf)
  cases p with
  | self => rfl
  | indirect => exact congrArg DiskInode.indirect hdin
  | dbIndirect => exact hdb
  | dbEntry a =>
      show (if _ then _ else _) = if _ then _ else _
      split
      case isFalse => rfl
      case isTrue ha =>
          rw [hdb]
          exact hword .dbIndirect trivial a ha
  | data n =>
      show View.dataAt _ i n = s.view.dataAt i n
      rcases Nat.lt_or_ge n sfsL0Nblks with hlt | hlo
      · rw [View.dataAt_direct hlt, View.dataAt_direct hlt, hdin]
      · rcases Nat.lt_or_ge n sfsL1Nblks with hlt | hlo'
        · rw [View.dataAt_indirect hlo hlt, View.dataAt_indirect hlo hlt, hdin]
          refine hword .indirect trivial _ ?_
          unfold sfsL1Nblks at hlt
          omega
        · rcases Nat.lt_or_ge n sfsL2Nblks with hlt | hpast
          · have hentry := View.entry_lt hlo' hlt
            have hmod : (n - sfsL1Nblks) % sfsBlkNentry < sfsBlkNentry :=
              Nat.mod_lt _ (by decide)
            have houter : (diskView disk).wordAt (s.view.dbIndirect i) _
                = s.view.wordAt (s.view.dbIndirect i) _ :=
              hword .dbIndirect trivial _ hentry
            have hinner := hword (.dbEntry ((n - sfsL1Nblks) / sfsBlkNentry))
              trivial _ hmod
            rw [View.target_dbEntry hentry] at hinner
            rw [View.dataAt_dbIndirect hlo' hlt, View.dataAt_dbIndirect hlo' hlt,
              hdb, houter]
            exact hinner
          · rw [View.dataAt_past hpast, View.dataAt_past hpast]

end Ucore.Mksfs
