/-
What the block functions do to the bytes of files. A block that a file has
after a call is the one it had, with the bytes it had, or it was cleared for
the call (`Kept`); so bytes past some offset that are zero stay zero.
-/
import Ucore.Sfs.Size
import Ucore.Sfs.Proofs.Truncate

namespace Ucore.Sfs

open Call (Returns)

variable {fs fs' fs₁ : SfsFs} {files held : Finset Nat} {i b n index : Nat}
  {ent entp : Nat} {node : SfsInode} {strict : Prop} {v v' v₀ : Volume}
  {ops : List (Nat × Int)}

-- ==================================================== blocks written

/-- Allocating a block writes no block in use, and clears the block. -/
theorem sfsBlockAlloc_disk {ino : Nat} (h : Inv held ⟨fs, files⟩)
    (hrun : sfsBlockAlloc fs = some (.ok ino, fs')) :
    (∀ d, Used fs d → d ≠ ino ∧ fs'.disk d = fs.disk d)
      ∧ ∀ k, fs'.disk ino k = 0 := by
  obtain ⟨hfree, -⟩ := sfsBlockAlloc_bits hrun
  rcases sfsBlockAlloc_spec h hrun with ⟨heq, -⟩
    | ⟨_, heq, -, -, -, -, -, -, -, hdisk, hzero, -⟩
  · cases heq
  · cases heq
    refine ⟨fun d hd => ?_, hzero⟩
    have hne : d ≠ ino := by
      rintro rfl
      have hbit := hd.2.1
      rw [hfree] at hbit
      cases hbit
    exact ⟨hne, hdisk d hne⟩

/-- Adding an entry writes no block in use but that of the entry, and the
block it adds holds zeros. -/
theorem bmapAddEntry_disk {j : Nat} {r : Except Err (Nat × Nat)}
    (h : Inv held ⟨fs, files⟩) (hent : Used fs ent)
    (hrun : bmapAddEntry entp ent (j * 4) fs = some (r, fs')) :
    (∀ d, Used fs d → d ≠ ent → fs'.disk d = fs.disk d)
      ∧ ∀ ino, r = .ok (ent, ino) → (∀ k, fs'.disk ino k = 0)
        ∧ entryAt fs'.disk ent j = ino := by
  unfold bmapAddEntry at hrun
  rw [Call.bind_eq_some] at hrun
  obtain ⟨o, fs₁, halloc, hrun⟩ := hrun
  rcases sfsBlockAlloc_spec h halloc with ⟨rfl, rfl, -⟩
    | ⟨ino, rfl, -, -, -, -, hinv, -⟩
  · dsimp only at hrun
    split at hrun
    case isTrue =>
        rw [Call.bind_eq_some] at hrun
        obtain ⟨_, fs₂, hfree, hrun⟩ := hrun
        rw [Call.pure_eq_some] at hrun
        obtain ⟨rfl, rfl⟩ := hrun
        obtain ⟨freemap, -, rfl⟩ := sfsBlockFree_run hfree
        exact ⟨fun _ _ _ => rfl, fun _ h => by cases h⟩
    case isFalse =>
        rw [Call.pure_eq_some] at hrun
        obtain ⟨rfl, rfl⟩ := hrun
        exact ⟨fun _ _ _ => rfl, fun _ h => by cases h⟩
  · dsimp only at hrun
    rw [Call.bind_eq_some] at hrun
    obtain ⟨_, fs₂, hwrite, hrun⟩ := hrun
    rw [Call.pure_eq_some] at hrun
    obtain ⟨rfl, rfl⟩ := hrun
    obtain rfl := sfsWbuf_entry hwrite
    obtain ⟨hkept, hzero⟩ := sfsBlockAlloc_disk h halloc
    have hlt := (hinv.held_range (Finset.mem_insert_self ino held)).2
    refine ⟨fun d hd hne => ?_, fun ino' heq => ?_⟩
    · rw [withEntry_ne hne]
      exact (hkept d hd).2
    · cases heq
      refine ⟨fun k => ?_, ?_⟩
      · rw [withEntry_ne (hkept ent hent).1.symm]
        exact hzero k
      · rw [entryAt_withEntry hlt, if_pos rfl]

/-- The same of `sfs_bmap_get_sub_nolock`, which may find the entry. -/
theorem sfsBmapGetSubNolock_disk {r : Except Err (Nat × Nat)}
    (h : Inv held ⟨fs, files⟩) (hnode : fs.inodes i = some node)
    (hrun : sfsBmapGetSubNolock node.din.indirect index true fs
      = some (r, fs')) :
    (∀ d, Used fs d → d ≠ node.din.indirect → fs'.disk d = fs.disk d)
      ∧ ∀ ent ino, r = .ok (ent, ino) → entryAt fs'.disk ent index = ino
        ∧ (fs' = fs ∧ ent = node.din.indirect ∨ ∀ k, fs'.disk ino k = 0) := by
  unfold sfsBmapGetSubNolock at hrun
  rw [Call.bind_eq_some] at hrun
  obtain ⟨_, _, hassert, hrun⟩ := hrun
  rw [Call.assert_eq_some] at hassert
  obtain ⟨hlt, rfl⟩ := hassert
  dsimp only at hrun
  split at hrun
  case isTrue hind =>
      have hused := h.used_indirect hnode hind
      rw [Call.bind_eq_some] at hrun
      obtain ⟨buf, _, hread, hrun⟩ := hrun
      obtain ⟨rfl, hword⟩ := sfsRbuf_entry hread
      rw [hword] at hrun
      split at hrun
      case isTrue =>
          rw [Call.pure_eq_some] at hrun
          obtain ⟨rfl, rfl⟩ := hrun
          refine ⟨fun _ _ _ => rfl, fun ent ino heq => ?_⟩
          cases heq
          exact ⟨rfl, Or.inl ⟨rfl, rfl⟩⟩
      case isFalse =>
          obtain ⟨hkept, hnew⟩ := bmapAddEntry_disk h hused hrun
          refine ⟨hkept, fun ent ino heq => ?_⟩
          rcases bmapAddEntry_run h hrun with ⟨ino', hok, -⟩ | ⟨hno, -⟩
          · rw [hok] at heq
            cases heq
            obtain ⟨hzero, hentry⟩ := hnew ino hok
            exact ⟨hentry, Or.inr hzero⟩
          · rw [hno] at heq
            cases heq
  case isFalse hind =>
      rw [not_not] at hind
      rw [if_neg (fun h => by cases h), Call.bind_eq_some] at hrun
      obtain ⟨o, fs₁, halloc, hrun⟩ := hrun
      rcases sfsBlockAlloc_spec h halloc with ⟨rfl, rfl, -⟩
        | ⟨ent, rfl, -, -, -, -, hinv, -⟩
      · dsimp only at hrun
        rw [Call.pure_eq_some] at hrun
        obtain ⟨rfl, rfl⟩ := hrun
        exact ⟨fun _ _ _ => rfl, fun _ _ h => by cases h⟩
      · dsimp only at hrun
        rw [hind] at hrun
        obtain ⟨hkept, -⟩ := sfsBlockAlloc_disk h halloc
        have hent := hinv.used_held (Finset.mem_insert_self ent held)
        obtain ⟨hkept', hnew⟩ := bmapAddEntry_disk hinv hent hrun
        refine ⟨fun d hd _ => ?_, fun ent' ino heq => ?_⟩
        · obtain ⟨hne, hsame⟩ := hkept d hd
          rw [hkept' d (hd.alloc halloc) hne]
          exact hsame
        · rcases bmapAddEntry_run hinv hrun with ⟨ino', hok, -⟩ | ⟨hno, -⟩
          · rw [hok] at heq
            cases heq
            obtain ⟨hzero, hentry⟩ := hnew ino hok
            exact ⟨hentry, Or.inr hzero⟩
          · rw [hno] at heq
            cases heq

/-- The block that an index gets is the one it had, or it holds zeros. -/
theorem sfsBmapGetNolock_disk {r : Except Err Nat} (h : Inv held ⟨fs, files⟩)
    (hnode : fs.inodes i = some node)
    (hrun : sfsBmapGetNolock i index true fs = some (r, fs')) :
    (∀ d, Used fs d → d ≠ node.din.indirect → fs'.disk d = fs.disk d)
      ∧ ∀ ino, r = .ok ino → blockAt fs' i index = ino
        ∧ (fs' = fs ∨ ∀ k, fs'.disk ino k = 0) := by
  unfold sfsBmapGetNolock at hrun
  rw [Call.bind_eq_some] at hrun
  obtain ⟨n, _, hget, hrun⟩ := hrun
  obtain ⟨hn, hsame⟩ := getSin_run hget
  rw [hnode] at hn
  cases hn
  rw [hsame] at hrun
  dsimp only at hrun
  split at hrun
  case isTrue hlt =>
      split at hrun
      case isTrue =>
          rw [Call.bind_eq_some] at hrun
          obtain ⟨o, fs₁, halloc, hrun⟩ := hrun
          cases o with
          | error e =>
              dsimp only at hrun
              rw [Call.pure_eq_some] at hrun
              obtain ⟨rfl, rfl⟩ := hrun
              rcases sfsBlockAlloc_spec h halloc with ⟨-, rfl, -⟩ | ⟨_, heq, -⟩
              · exact ⟨fun _ _ _ => rfl, fun _ h => by cases h⟩
              · cases heq
          | ok ino =>
              dsimp only at hrun
              rw [Call.bind_eq_some] at hrun
              obtain ⟨_, fs₂, hset, hrun⟩ := hrun
              obtain ⟨rfl, rfl⟩ := bmapGetOut_run hrun
              obtain rfl := setSin_run hset
              obtain ⟨hkept, hzero⟩ := sfsBlockAlloc_disk h halloc
              refine ⟨fun d hd _ => (hkept d hd).2, fun ino' heq => ?_⟩
              cases heq
              refine ⟨?_, Or.inr hzero⟩
              rw [blockAt_direct hlt, inodeOf_loaded withNode_self]
              exact Function.update_self _ _ _
      case isFalse =>
          obtain ⟨rfl, rfl⟩ := bmapGetOut_run hrun
          refine ⟨fun _ _ _ => rfl, fun ino heq => ?_⟩
          cases heq
          refine ⟨?_, Or.inl rfl⟩
          rw [blockAt_direct hlt, inodeOf_loaded hnode]
  case isFalse hge =>
      have hge' := Nat.not_lt.1 hge
      split at hrun
      case isFalse => exact absurd hrun Call.panic_ne_some
      case isTrue hlt =>
          rw [Call.bind_eq_some] at hrun
          obtain ⟨o, fs₁, hsub, hrun⟩ := hrun
          obtain ⟨hkept, hout⟩ := sfsBmapGetSubNolock_disk h hnode hsub
          obtain ⟨-, hused⟩ := sfsBmapGetSubNolock_takes h hnode hsub
          obtain ⟨hinodes, -⟩ := sfsBmapGetSubNolock_spec h hnode hsub
          have hnode₁ : fs₁.inodes i = some node :=
            (congrFun hinodes i).trans hnode
          cases o with
          | error e =>
              dsimp only at hrun
              rw [Call.pure_eq_some] at hrun
              obtain ⟨rfl, rfl⟩ := hrun
              exact ⟨hkept, fun _ h => by cases h⟩
          | ok a =>
              obtain ⟨ent, ino⟩ := a
              obtain ⟨hentry, hnew⟩ := hout ent ino rfl
              have hent := (hused ent ino rfl).1
              -- the entry, read through the inode that has the indirect block
              have hread : ∀ {fs₂ : SfsFs} {node₂ : SfsInode},
                  fs₂.inodes i = some node₂ → node₂.din.indirect = ent →
                  fs₂.disk = fs₁.disk → blockAt fs₂ i index = ino := by
                intro fs₂ node₂ hnode₂ hind₂ hdisk₂
                rw [blockAt_entry hge' hlt, target_entry,
                  inodeOf_loaded hnode₂, hind₂, if_neg hent, hdisk₂]
                exact hentry
              dsimp only at hrun
              split at hrun
              case isFalse heq =>
                  rw [not_not] at heq
                  obtain ⟨rfl, rfl⟩ := bmapGetOut_run hrun
                  refine ⟨hkept, fun ino' hok => ?_⟩
                  cases hok
                  exact ⟨hread hnode₁ heq.symm rfl,
                    hnew.imp_left fun hboth => hboth.1⟩
              case isTrue hne =>
                  simp only [Call.bind_eq_some, Call.assert_eq_some] at hrun
                  obtain ⟨_, _, ⟨-, rfl⟩, _, fs₂, hset, hrun⟩ := hrun
                  obtain ⟨rfl, rfl⟩ := bmapGetOut_run hrun
                  obtain rfl := setSin_run hset
                  refine ⟨hkept, fun ino' hok => ?_⟩
                  cases hok
                  refine ⟨hread withNode_self rfl rfl, ?_⟩
                  rcases hnew with ⟨-, heq⟩ | hzero
                  · exact absurd heq hne
                  · exact Or.inr hzero

-- =========================================================== content

/-- A call on inode `i`: each block of a file after it is the one it was,
with its bytes, or holds zeros; and the first `n` of the inode and those of
the other files are the ones they were. -/
structure Kept (files : Finset Nat) (i n : Nat) (fs fs' : SfsFs) : Prop where
  block : ∀ i' ∈ files, ∀ k, blockAt fs' i' k ≠ 0 →
    blockAt fs' i' k = blockAt fs i' k
        ∧ fs'.disk (blockAt fs i' k) = fs.disk (blockAt fs i' k)
      ∨ ∀ j, fs'.disk (blockAt fs' i' k) j = 0
  held : ∀ i' ∈ files, ∀ k, (i' = i → k < n) →
    blockAt fs' i' k = blockAt fs i' k ∧ (blockAt fs i' k ≠ 0 →
      fs'.disk (blockAt fs i' k) = fs.disk (blockAt fs i' k))

theorem Kept.refl (files : Finset Nat) (i n : Nat) (fs : SfsFs) :
    Kept files i n fs fs :=
  ⟨fun _ _ _ _ => Or.inl ⟨rfl, rfl⟩, fun _ _ _ _ => ⟨rfl, fun _ => rfl⟩⟩

theorem Kept.trans (h : Kept files i n fs fs₁) (h' : Kept files i n fs₁ fs') :
    Kept files i n fs fs' := by
  constructor
  case block =>
    intro i' hi k hne
    rcases h'.block i' hi k hne with ⟨hsame', hdisk'⟩ | hzero'
    · rw [hsame'] at hne ⊢
      rcases h.block i' hi k hne with ⟨hsame, hdisk⟩ | hzero
      · refine Or.inl ⟨hsame, ?_⟩
        rw [hsame] at hdisk'
        exact hdisk'.trans hdisk
      · refine Or.inr fun j => ?_
        rw [hdisk']
        exact hzero j
    · exact Or.inr hzero'
  case held =>
    intro i' hi k hk
    obtain ⟨hsame, hdisk⟩ := h.held i' hi k hk
    obtain ⟨hsame', hdisk'⟩ := h'.held i' hi k hk
    rw [hsame] at hsame' hdisk'
    exact ⟨hsame', fun hne => (hdisk' hne).trans (hdisk hne)⟩

/-- Zeros stay zeros. -/
theorem ZeroFrom.kept {i' m : Nat} (h : ZeroFrom fs i' m)
    (hkept : Kept files i n fs fs') (hi : i' ∈ files) : ZeroFrom fs' i' m := by
  intro o hle hne
  unfold fileByte
  rcases hkept.block i' hi _ hne with ⟨hsame, hdisk⟩ | hzero
  · rw [hsame] at hne ⊢
    rw [hdisk]
    exact h o hle hne
  · exact hzero _

/-- A block of a file is in use, and no indirect block. -/
theorem Inv.data {k i' : Nat} (h : Inv held ⟨fs, files⟩) (hi : i ∈ files)
    (hi' : i' ∈ files) (hne : blockAt fs i k ≠ 0) :
    Used fs (blockAt fs i k) ∧ blockAt fs i k ≠ (inodeOf fs i').indirect := by
  have hlt : k < maxBlocks := by
    by_contra hge
    exact hne (blockAt_past (Nat.not_lt.1 hge))
  obtain ⟨pos, hpos⟩ := exists_pos hlt
  rw [blockAt_eq_target hpos] at hne ⊢
  refine ⟨h.used_target hi hne, fun heq => ?_⟩
  have hdata : Refers ⟨fs, files⟩ (i, pos) (target fs i pos) := ⟨hi, rfl, hne⟩
  have hind : Refers ⟨fs, files⟩ (i', .indirect) (target fs i pos) :=
    ⟨hi', heq.symm, hne⟩
  have hsame := congrArg Prod.snd (h.exact.inj hdata hind)
  dsimp only at hsame
  rw [hsame] at hpos
  cases hpos

/-- A call that changes no block and writes none. -/
theorem Kept.of_targets {node' : SfsInode}
    (h : ∀ i' pos, target (withNode fs i node') i' pos = target fs i' pos) :
    Kept files i n fs (withNode fs i node') := by
  have hsame : ∀ i' k, blockAt (withNode fs i node') i' k = blockAt fs i' k :=
    fun i' k => blockAt_congr fun pos _ => h i' pos
  exact ⟨fun i' _ k _ => Or.inl ⟨hsame i' k, rfl⟩,
    fun i' _ k _ => ⟨hsame i' k, fun _ => rfl⟩⟩

/-- Where the targets of an inode at one index change, and no block is
written but its indirect block. -/
theorem Kept.of_index (index : Nat) (h : Inv held ⟨fs, files⟩) (hi : i ∈ files)
    (htargets : ∀ {i'}, i' ∈ files → ∀ {pos : Pos} {k : Nat},
      pos.index = some k → (i' = i → k ≠ index) →
      target fs' i' pos = target fs i' pos)
    (hdisk : ∀ d, Used fs d → d ≠ (inodeOf fs i).indirect →
      fs'.disk d = fs.disk d)
    (hindex : blockAt fs' i index ≠ 0 →
      blockAt fs' i index = blockAt fs i index
        ∨ ∀ j, fs'.disk (blockAt fs' i index) j = 0) (hle : n ≤ index) :
    Kept files i n fs fs' := by
  -- a block that is the one it was has its bytes
  have hkept : ∀ i' ∈ files, ∀ k, blockAt fs i' k ≠ 0 →
      fs'.disk (blockAt fs i' k) = fs.disk (blockAt fs i' k) := by
    intro i' hi' k hne
    obtain ⟨hused, hother⟩ := h.data hi' hi hne
    exact hdisk _ hused hother
  have hsame : ∀ i' ∈ files, ∀ k, (i' = i → k ≠ index) →
      blockAt fs' i' k = blockAt fs i' k := by
    intro i' hi' k hno
    exact blockAt_congr fun pos hpos => htargets hi' hpos hno
  constructor
  case block =>
    intro i' hi' k hne
    by_cases hat : i' = i ∧ k = index
    · obtain ⟨rfl, rfl⟩ := hat
      rcases hindex hne with hblock | hzero
      · rw [hblock] at hne
        exact Or.inl ⟨hblock, hkept i' hi' k hne⟩
      · exact Or.inr hzero
    · have hblock := hsame i' hi' k fun heq hk => hat ⟨heq, hk⟩
      rw [hblock] at hne
      exact Or.inl ⟨hblock, hkept i' hi' k hne⟩
  case held =>
    intro i' hi' k hk
    refine ⟨hsame i' hi' k fun heq => ?_, hkept i' hi' k⟩
    exact Nat.ne_of_lt (Nat.lt_of_lt_of_le (hk heq) hle)

theorem loadBlock_kept {r : Except Err Nat} (h : Sound strict files fs)
    (hnode : fs.inodes i = some node)
    (hrun : sfsBmapLoadNolock i node.din.blocks fs = some (r, fs'))
    (hle : n ≤ node.din.blocks) : Kept files i n fs fs' := by
  obtain ⟨-, node', hadded⟩ := loadBlock_takes h hnode hrun
  have hi := (h.inv.loaded hnode).1
  unfold sfsBmapLoadNolock at hrun
  simp only [Call.bind_eq_some, Call.assert_eq_some] at hrun
  obtain ⟨n, _, hget, _, _, ⟨-, rfl⟩, o, fs₁, hmap, hrun⟩ := hrun
  obtain ⟨hn, hsame⟩ := getSin_run hget
  rw [hnode] at hn
  cases hn
  rw [hsame, decide_eq_true rfl] at hmap
  obtain ⟨hdisk, hout⟩ := sfsBmapGetNolock_disk h.inv hnode hmap
  -- the store to the block count changes no block
  obtain ⟨hdisk', hblock', hok⟩ : fs'.disk = fs₁.disk
      ∧ blockAt fs' i node.din.blocks = blockAt fs₁ i node.din.blocks
      ∧ (r.isOk = true → ∃ ino, o = .ok ino) := by
    cases o with
    | error e =>
        dsimp only at hrun
        rw [Call.pure_eq_some] at hrun
        obtain ⟨rfl, rfl⟩ := hrun
        exact ⟨rfl, rfl, fun h => by cases h⟩
    | ok ino =>
        dsimp only at hrun
        rw [if_pos (decide_eq_true rfl)] at hrun
        simp only [Call.bind_eq_some, Call.assert_eq_some, Call.pure_eq_some]
          at hrun
        obtain ⟨_, fs₂, hinuse, _, _, ⟨-, rfl⟩, n₁, _, hget₁, _, _, hset, rfl,
          rfl⟩ := hrun
        obtain ⟨hsame₂, -⟩ := sfsBlockInuse_run hinuse
        obtain ⟨hn₁, hsame₃⟩ := getSin_run hget₁
        rw [hsame₂] at hn₁ hsame₃
        rw [hsame₃] at hset
        obtain rfl := setSin_run hset
        have hkept : SameMap (n₁.withBlocks (n₁.din.blocks + 1)).din n₁.din :=
          ⟨rfl, rfl, rfl⟩
        exact ⟨rfl, blockAt_congr fun pos _ =>
          target_withNode hn₁ hkept i pos, fun _ => ⟨ino, rfl⟩⟩
  have hdin := inodeOf_loaded hnode
  have htargets : ∀ {i'}, i' ∈ files → ∀ {pos : Pos} {k : Nat},
      pos.index = some k → (i' = i → k ≠ node.din.blocks) →
      target fs' i' pos = target fs i' pos := by
    intro i' hi' pos k hpos hne
    apply hadded.targets hi'
    rintro heq ⟨-, rfl | hat⟩
    · cases hpos
    · exact hne heq (Option.some.inj (hpos.symm.trans hat))
  refine Kept.of_index node.din.blocks h.inv hi htargets ?_ ?_ hle
  · intro d hd hne
    rw [hdisk', hdisk d hd (hdin ▸ hne)]
  · intro hne
    by_cases hr : r.isOk = true
    · obtain ⟨ino, rfl⟩ := hok hr
      obtain ⟨hblock, rfl | hzero⟩ := hout ino rfl
      · exact Or.inl hblock'
      · refine Or.inr fun j => ?_
        rw [hblock', hblock, hdisk']
        exact hzero j
    · -- a call that fails changes no target
      refine Or.inl (blockAt_congr fun pos hpos => ?_)
      exact hadded.targets hi fun _ hboth => hr hboth.1

theorem growFile_kept {r : Except Err Unit} :
    ∀ {m : Nat} {fs : SfsFs} {node : SfsInode},
    Sound strict files fs → fs.inodes i = some node →
    growFile i m node.din.blocks fs = some (r, fs') →
    n ≤ node.din.blocks → Kept files i n fs fs' := by
  intro m
  induction m with
  | zero =>
      intro fs node _ _ hrun _
      rw [growFile, Call.pure_eq_some] at hrun
      obtain ⟨-, rfl⟩ := hrun
      exact Kept.refl files i n fs'
  | succ m ih =>
      intro fs node h hnode hrun hle
      rw [growFile, Call.bind_eq_some] at hrun
      obtain ⟨o, fs₁, hload, hrun⟩ := hrun
      obtain ⟨-, node₁, hadded⟩ := loadBlock_takes h hnode hload
      obtain ⟨hsound, -⟩ := sfsBmapLoadNolock_spec h hload
      have hkept := loadBlock_kept h hnode hload hle
      cases o with
      | error e =>
          dsimp only at hrun
          rw [Call.pure_eq_some] at hrun
          obtain ⟨-, rfl⟩ := hrun
          exact hkept
      | ok ino =>
          have hblocks : node₁.din.blocks = node.din.blocks + 1 := hadded.blocks
          dsimp only at hrun
          rw [← hblocks] at hrun
          have hle₁ : n ≤ node₁.din.blocks := by omega
          exact hkept.trans (ih hsound hadded.loaded hrun hle₁)

/-- Freeing a block writes no block but the indirect block. -/
theorem sfsBmapFreeNolock_disk {u : Unit} (hnode : fs.inodes i = some node)
    (hrun : sfsBmapFreeNolock i index fs = some (u, fs')) :
    ∀ d, d ≠ node.din.indirect → fs'.disk d = fs.disk d := by
  unfold sfsBmapFreeNolock at hrun
  rw [Call.bind_eq_some] at hrun
  obtain ⟨n, fs₁, hget, hrun⟩ := hrun
  obtain ⟨hn, hsame⟩ := getSin_run hget
  rw [hnode] at hn
  cases hn
  rw [hsame] at hrun
  dsimp only at hrun
  split at hrun
  case isTrue =>
      split at hrun
      case isTrue =>
          rw [Call.bind_eq_some] at hrun
          obtain ⟨_, fs₂, hfree, hset⟩ := hrun
          obtain ⟨freemap, -, rfl⟩ := sfsBlockFree_run hfree
          obtain rfl := setSin_run hset
          exact fun _ _ => rfl
      case isFalse =>
          rw [Call.pure_eq_some] at hrun
          obtain ⟨-, rfl⟩ := hrun
          exact fun _ _ => rfl
  case isFalse =>
      split at hrun
      case isFalse =>
          rw [Call.pure_eq_some] at hrun
          obtain ⟨-, rfl⟩ := hrun
          exact fun _ _ => rfl
      case isTrue =>
          intro d hd
          unfold sfsBmapFreeSubNolock at hrun
          simp only [Call.bind_eq_some, Call.assert_eq_some] at hrun
          obtain ⟨_, fs₁, hinuse, _, _, ⟨-, rfl⟩, buf, fs₂, hread, hrun⟩ :=
            hrun
          obtain ⟨hsame₁, -⟩ := sfsBlockInuse_run hinuse
          obtain ⟨hsame₂, -⟩ := sfsRbuf_entry hread
          rw [hsame₂, hsame₁] at hrun
          split at hrun
          case isTrue =>
              rw [Call.bind_eq_some] at hrun
              obtain ⟨_, fs₃, hwrite, hfree⟩ := hrun
              obtain rfl := sfsWbuf_entry hwrite
              obtain ⟨freemap, -, rfl⟩ := sfsBlockFree_run hfree
              exact withEntry_ne hd
          case isFalse =>
              rw [Call.pure_eq_some] at hrun
              rw [hrun.2]

theorem sfsBmapTruncateNolock_kept {u : Unit} (h : Sound strict files fs)
    (hnode : fs.inodes i = some node)
    (hrun : sfsBmapTruncateNolock i fs = some (u, fs'))
    (hle : n ≤ node.din.blocks - 1) : Kept files i n fs fs' := by
  unfold sfsBmapTruncateNolock at hrun
  simp only [Call.bind_eq_some, Call.assert_eq_some] at hrun
  obtain ⟨n', _, hget, _, _, ⟨-, rfl⟩, _, fs₁, hfree, node₁, fs₂, hget₁,
    hset⟩ := hrun
  obtain ⟨hn, hsame⟩ := getSin_run hget
  rw [hnode] at hn
  cases hn
  rw [hsame] at hfree
  obtain ⟨-, hchange, -, hzero⟩ := sfsBmapFreeNolock_spec h.inv hfree
  have hdisk := sfsBmapFreeNolock_disk hnode hfree
  obtain ⟨hnode₁, hsame₁⟩ := getSin_run hget₁
  rw [hsame₁] at hset
  obtain rfl := setSin_run hset
  have hi := (h.inv.loaded hnode).1
  have hdin := inodeOf_loaded hnode
  let node' : SfsInode := { node₁ with
    din := { node₁.din with blocks := node₁.din.blocks - 1 }, dirty := true }
  have hmap : SameMap node'.din node₁.din := ⟨rfl, rfl, rfl⟩
  have htargets : ∀ i' pos,
      target (withNode fs₁ i node') i' pos = target fs₁ i' pos :=
    fun i' pos => target_withNode hnode₁ hmap i' pos
  refine Kept.of_index (node.din.blocks - 1) h.inv hi ?_ ?_ ?_ hle
  · intro i' hi' pos k hpos hne
    refine (htargets i' pos).trans (hchange.targets hi' fun heq hat => ?_)
    exact hne heq (Option.some.inj (hpos.symm.trans hat))
  · intro d _ hne
    exact hdisk d (hdin ▸ hne)
  · intro hne
    by_cases hlt : node.din.blocks - 1 < maxBlocks
    · obtain ⟨pos, hpos⟩ := exists_pos hlt
      rw [blockAt_eq_target hpos] at hne
      exact absurd ((htargets i pos).trans (hzero pos hpos)) hne
    · exact absurd (blockAt_past (Nat.not_lt.1 hlt)) hne

theorem shrinkFile_kept {u : Unit} :
    ∀ {m : Nat} {fs : SfsFs} {node : SfsInode},
    Sound strict files fs → fs.inodes i = some node →
    shrinkFile i m fs = some (u, fs') → n ≤ node.din.blocks - m →
    Kept files i n fs fs' := by
  intro m
  induction m with
  | zero =>
      intro fs node _ _ hrun _
      rw [shrinkFile, Call.pure_eq_some] at hrun
      obtain ⟨-, rfl⟩ := hrun
      exact Kept.refl files i n fs'
  | succ m ih =>
      intro fs node h hnode hrun hle
      rw [shrinkFile, Call.bind_eq_some] at hrun
      obtain ⟨_, fs₁, htruncate, hrun⟩ := hrun
      obtain ⟨hsound, -⟩ := sfsBmapTruncateNolock_spec h htruncate
      obtain ⟨node₁, hnode₁, hshrunk⟩ :=
        sfsBmapTruncateNolock_shrunk hnode htruncate
      have hblocks := hshrunk.blocks
      have hkept : Kept files i n fs fs₁ :=
        sfsBmapTruncateNolock_kept h hnode htruncate (by omega)
      exact hkept.trans (ih hsound hnode₁ hrun (by omega))

/-- `sfs_truncfile` moves no byte. -/
theorem sfsTruncfile_kept {r : Except Err Unit} {len : Int}
    (h : Sound strict files fs) (hnode : fs.inodes i = some node)
    (hrun : sfsTruncfile i len fs = some (r, fs')) (hle : n ≤ node.din.blocks)
    (hlen : n ≤ roundupDiv len.toNat sfsBlksize) : Kept files i n fs fs' := by
  unfold sfsTruncfile at hrun
  split at hrun
  case isTrue =>
      rw [Call.pure_eq_some] at hrun
      obtain ⟨-, rfl⟩ := hrun
      exact Kept.refl files i n fs'
  case isFalse =>
      rw [Call.bind_eq_some] at hrun
      obtain ⟨n', _, hget, hrun⟩ := hrun
      obtain ⟨hn, hsame⟩ := getSin_run hget
      rw [hnode] at hn
      cases hn
      rw [hsame] at hrun
      dsimp only at hrun
      split at hrun
      case isTrue =>
          simp only [Call.bind_eq_some, Call.assert_eq_some,
            Call.pure_eq_some] at hrun
          obtain ⟨_, _, ⟨-, rfl⟩, -, rfl⟩ := hrun
          exact Kept.refl files i n _
      case isFalse =>
          rw [Call.bind_eq_some] at hrun
          obtain ⟨o, fs₁, hresize, hrun⟩ := hrun
          have hkept : Kept files i n fs fs₁ := by
            unfold resizeFile at hresize
            split at hresize
            case isTrue => exact growFile_kept h hnode hresize hle
            case isFalse =>
                simp only [Call.bind_eq_some, Call.pure_eq_some] at hresize
                obtain ⟨_, _, hshrink, -, rfl⟩ := hresize
                exact shrinkFile_kept h hnode hshrink (by omega)
          cases o with
          | error e =>
              dsimp only at hrun
              rw [Call.pure_eq_some] at hrun
              obtain ⟨-, rfl⟩ := hrun
              exact hkept
          | ok _ =>
              simp only [Call.bind_eq_some, Call.assert_eq_some,
                Call.pure_eq_some] at hrun
              obtain ⟨node₁, fs₂, hget₁, _, _, ⟨-, hsame₃⟩, _, _, hset, -,
                rfl⟩ := hrun
              obtain ⟨hnode₁, hsame₂⟩ := getSin_run hget₁
              rw [hsame₃] at hset
              obtain rfl := setSin_run hset
              rw [hsame₂]
              -- the store of the size changes no block
              let node' : SfsInode := { node₁ with
                din := { node₁.din with size := len.toNat }, dirty := true }
              have hmap : SameMap node'.din node₁.din := ⟨rfl, rfl, rfl⟩
              exact hkept.trans (Kept.of_targets fun i' pos =>
                target_withNode hnode₁ hmap i' pos)

-- ================================================ growing over a cut

theorem roundupDiv_inside {m o : Nat} (hle : m ≤ o)
    (hlt : o / sfsBlksize < roundupDiv m sfsBlksize) :
    roundupDiv (o + 1) sfsBlksize = roundupDiv m sfsBlksize := by
  unfold roundupDiv sfsBlksize at *
  omega

/-- The largest length is a number of blocks. -/
theorem inside_maxFileSize {m o : Nat}
    (hlt : o / sfsBlksize < roundupDiv m sfsBlksize)
    (hmax : m ≤ sfsMaxFileSize) : o + 1 ≤ sfsMaxFileSize := by
  unfold roundupDiv sfsBlksize sfsMaxFileSize at *
  omega

/-- Past its block count a file has no blocks. -/
theorem Sound.blockAt_ge (h : Sound True files fs) (hi : i ∈ files)
    (hle : (inodeOf fs i).blocks ≤ index) : blockAt fs i index = 0 := by
  by_cases hlt : index < maxBlocks
  · obtain ⟨pos, hpos⟩ := exists_pos hlt
    rw [blockAt_eq_target hpos]
    exact h.covered hi (Or.inl trivial) hpos hle
  · exact blockAt_past (Nat.not_lt.1 hlt)

theorem Sound.blockAt_lt (h : Sound True files fs) (hi : i ∈ files)
    (hne : blockAt fs i index ≠ 0) : index < (inodeOf fs i).blocks :=
  Nat.lt_of_not_le fun hle => hne (h.blockAt_ge hi hle)

/-- The bytes of a block that is held. -/
theorem Kept.fileByte {o : Nat} (hkept : Kept files i n fs fs')
    (hi : i ∈ files) (hlt : o / sfsBlksize < n)
    (hne : blockAt fs i (o / sfsBlksize) ≠ 0) :
    blockAt fs' i (o / sfsBlksize) ≠ 0
      ∧ fileByte fs' i o = fileByte fs i o := by
  obtain ⟨hsame, hdisk⟩ := hkept.held i hi _ fun _ => hlt
  unfold Sfs.fileByte
  rw [hsame, hdisk hne]
  exact ⟨hne, rfl⟩

/-- A call that sets the size leaves zeros past it just where it cut
zeros. -/
theorem zeroFrom_truncfile {len : Int} (h : Sound True files fs)
    (hnode : fs.inodes i = some node) (hzero : ZeroFrom fs i node.din.size)
    (hrun : sfsTruncfile i len fs = some (.ok (), fs')) :
    ZeroFrom fs' i len.toNat ↔ CutsZeros fs i len.toNat := by
  have hi := (h.inv.loaded hnode).1
  have hdin := inodeOf_loaded hnode
  have hkept : Kept files i
      (min node.din.blocks (roundupDiv len.toNat sfsBlksize)) fs fs' :=
    sfsTruncfile_kept h hnode hrun (Nat.min_le_left _ _) (Nat.min_le_right _ _)
  have h' := (sfsTruncfile_spec h hrun).1
  obtain ⟨node', hnode', hblocks⟩ := (sfsTruncfile_spec h hrun).2.2 rfl
  have hdin' := inodeOf_loaded hnode'
  constructor
  · intro hzero' o hle hsize hlt hne
    have hheld := h.blockAt_lt hi hne
    rw [hdin] at hheld
    obtain ⟨hne', hbyte⟩ := hkept.fileByte hi (Nat.lt_min.2 ⟨hheld, hlt⟩) hne
    rw [← hbyte]
    exact hzero' o hle hne'
  · intro hcuts o hle hne'
    by_cases hsize : o < node.din.size
    · have hlt := h'.blockAt_lt hi hne'
      rw [hdin', hblocks] at hlt
      unfold Sfs.fileByte
      rcases hkept.block i hi _ hne' with ⟨hsame, hdisk⟩ | hall
      · rw [hsame] at hne' ⊢
        rw [hdisk]
        exact hcuts o hle (hdin ▸ hsize) hlt hne'
      · exact hall _
    · exact (hzero.kept hkept hi) o (Nat.not_lt.1 hsize) hne'

/-- A byte past the size of a file in a block that it has is exposed: the
file grows over it and gets no block. -/
theorem exposed {o : Nat} (h : Sound True files fs)
    (hnode : fs.inodes i = some node) (hagrees : SizeAgrees node.din)
    (hmax : node.din.size ≤ sfsMaxFileSize) (hle : node.din.size ≤ o)
    (hne : blockAt fs i (o / sfsBlksize) ≠ 0) :
    ∃ fs', sfsTruncfile i (o + 1 : Nat) fs = some (.ok (), fs')
      ∧ (inodeOf fs' i).size = o + 1 ∧ blockAt fs' i (o / sfsBlksize) ≠ 0
      ∧ fileByte fs' i o = fileByte fs i o := by
  have hdin := inodeOf_loaded hnode
  have hheld := h.blockAt_lt (h.inv.loaded hnode).1 hne
  rw [hdin] at hheld
  have hlt : o / sfsBlksize < roundupDiv node.din.size sfsBlksize := by
    rw [← hagrees]
    exact hheld
  have hsame : roundupDiv (o + 1) sfsBlksize = node.din.blocks :=
    (roundupDiv_inside hle hlt).trans hagrees.symm
  have hfits : o + 1 ≤ sfsMaxFileSize := inside_maxFileSize hlt hmax
  have hret : Returns (sfsTruncfile i (o + 1 : Nat)) fs := by
    apply (sfsTruncfile_returns h hnode (Int.natCast_nonneg _)
      (Int.ofNat_le.2 hfits)).2
    unfold Resizable
    rw [hdin, Int.toNat_natCast, if_neg (by omega)]
    unfold CanHold
    rw [hdin, hsame]
    exact Or.inl (Nat.le_refl _)
  obtain ⟨r, fs', hrun⟩ := hret
  obtain ⟨node', hnode', -, hout⟩ := sfsTruncfile_outcome h hnode hrun
  rw [Int.toNat_natCast, hsame] at hout
  have hkept : Kept files i node.din.blocks fs fs' := by
    apply sfsTruncfile_kept h hnode hrun (Nat.le_refl _)
    rw [Int.toNat_natCast, hsame]
  obtain ⟨hne', hbyte⟩ := hkept.fileByte (h.inv.loaded hnode).1 hheld hne
  rcases hout with ⟨rfl, hsize, -⟩ | ⟨-, -, hrange⟩ | ⟨-, -, hmore, -⟩
  · exact ⟨fs', hrun, (inodeOf_loaded hnode') ▸ hsize, hne', hbyte⟩
  · omega
  · exact absurd hmore (Nat.lt_irrefl _)

-- ============================================================== runs

/-- What every call keeps, as far as file `i` goes. -/
structure Hides (i : Nat) (v : Volume) : Prop where
  sound : Sound True v.files v.fs
  file : i ∈ v.files
  zero : ZeroFrom v.fs i (inodeOf v.fs i).size

/-- The inode that a call is on is in memory. -/
theorem sfsTruncfile_loaded {r : Except Err Unit} {len : Int}
    (hrun : sfsTruncfile i len fs = some (r, fs')) :
    fs' = fs ∨ ∃ node, fs.inodes i = some node := by
  unfold sfsTruncfile at hrun
  split at hrun
  case isTrue =>
      rw [Call.pure_eq_some] at hrun
      exact Or.inl hrun.2
  case isFalse =>
      rw [Call.bind_eq_some] at hrun
      obtain ⟨node, _, hget, -⟩ := hrun
      exact Or.inr ⟨node, (getSin_run hget).1⟩

/-- Any call: the inodes of the volume stay, and zeros past some offset of a
file too. -/
theorem TruncStep.zero {m : Nat} {x : Nat × Int} (hstep : TruncStep v x v')
    (h : Sound True v.files v.fs) (hi : i ∈ v.files)
    (hzero : ZeroFrom v.fs i m) :
    Sound True v'.files v'.fs ∧ i ∈ v'.files ∧ ZeroFrom v'.fs i m := by
  cases hstep with
  | call hrun =>
      refine ⟨(sfsTruncfile_spec h hrun).1, hi, ?_⟩
      rcases sfsTruncfile_loaded hrun with rfl | ⟨node, hnode⟩
      · exact hzero
      · exact hzero.kept (sfsTruncfile_kept h hnode hrun
          (Nat.zero_le _) (Nat.zero_le _)) hi

/-- Zeros at the size stay zeros while the calls cut zeros only. -/
theorem Hides.step {x : Nat × Int} (h : Hides i v)
    (hstep : CleanStep i v x v') : Hides i v' := by
  obtain ⟨hcall, hcuts⟩ := hstep
  obtain ⟨hsound, hi, hkept⟩ := hcall.zero h.sound h.file h.zero
  refine ⟨hsound, hi, ?_⟩
  cases hcall with
  | call hrun =>
      rcases sfsTruncfile_loaded hrun with rfl | ⟨node, hnode⟩
      · exact h.zero
      · by_cases heq : x.1 = i
        · obtain ⟨node', hnode', -, hout⟩ :=
            sfsTruncfile_outcome h.sound hnode hrun
          rw [heq] at hnode hrun hnode'
          have hdin := inodeOf_loaded hnode
          have hdin' := inodeOf_loaded hnode'
          have hzero := h.zero
          rw [hdin] at hzero hkept
          dsimp only at hkept ⊢
          rw [hdin']
          rcases hout with ⟨rfl, hsize, -⟩ | ⟨-, rfl, -⟩ | ⟨-, hsize, -⟩
          · rw [hsize]
            exact (zeroFrom_truncfile h.sound hnode hzero hrun).2 (hcuts heq)
          · rw [hnode] at hnode'
            cases hnode'
            exact hkept
          · rw [hsize]
            exact hkept
        · obtain ⟨-, hframe, -⟩ := sfsTruncfile_spec h.sound hrun
          have hsame := inodeOf_other hframe.others
            (hframe.quiet.mono (Finset.erase_subset x.1 v.files)) h.file
            (Ne.symm heq)
          dsimp only at hkept ⊢
          rw [hsame]
          exact hkept

theorem Hides.exposes (h : Hides i v) : ExposesZeros v i := by
  intro ops v' hrun o hle _ hne
  have hall := hrun.invariant
    (I := fun v' => Sound True v'.files v'.fs ∧ i ∈ v'.files
      ∧ ZeroFrom v'.fs i (inodeOf v.fs i).size)
    (fun hI hstep => hstep.zero hI.1 hI.2.1 hI.2.2) ⟨h.sound, h.file, h.zero⟩
  exact hall.2.2 o hle hne

/-- Zeros past the size are all that growth exposes, and a byte that is none
is exposed by growth. -/
theorem exposesZeros_iff (h : Sound True v.files v.fs)
    (hnode : v.fs.inodes i = some node) (hagrees : SizeAgrees node.din)
    (hmax : node.din.size ≤ sfsMaxFileSize) :
    ExposesZeros v i ↔ ZeroFrom v.fs i node.din.size := by
  have hi := (h.inv.loaded hnode).1
  have hdin := inodeOf_loaded hnode
  constructor
  · intro hexposes o hle hne
    obtain ⟨fs', hrun, hsize, hne', hbyte⟩ :=
      exposed h hnode hagrees hmax hle hne
    have hlt : o < (inodeOf fs' i).size := by
      rw [hsize]
      exact Nat.lt_succ_self o
    rw [← hbyte]
    exact hexposes [(i, (o + 1 : Nat))] ⟨fs', v.files⟩ (.single (.call hrun))
      o (hdin ▸ hle) hlt hne'
  · intro hzero
    exact Hides.exposes ⟨h, hi, hdin ▸ hzero⟩

/-- While the calls on a file cut zeros only, and its last block held zeros
past the size at the start, growth exposes zeros; after a further call it
does just where that one cut zeros. -/
theorem growth_exposes_zeros (himage : Consistent v₀) (hi : i ∈ v₀.files)
    (hslack : ZeroFrom v₀.fs i (inodeOf v₀.fs i).size)
    (hrun : Run (CleanStep i) v₀ ops v) :
    ExposesZeros v i ∧ ∀ len fs',
      sfsTruncfile i len v.fs = some (.ok (), fs') →
      (ExposesZeros ⟨fs', v.files⟩ i ↔ CutsZeros v.fs i len.toNat) := by
  have h : Hides i v := hrun.invariant (I := Hides i)
    (fun h hstep => h.step hstep) ⟨himage.sound True, hi, hslack⟩
  refine ⟨h.exposes, fun len fs' hcall => ?_⟩
  have hrange : 0 ≤ len ∧ len ≤ sfsMaxFileSize := by
    by_contra hout
    unfold sfsTruncfile at hcall
    rw [if_pos (by omega), Call.pure_eq_some] at hcall
    cases hcall.1
  obtain ⟨node, hnode⟩ : ∃ node, v.fs.inodes i = some node := by
    rw [sfsTruncfile, if_neg (by omega), Call.bind_eq_some] at hcall
    obtain ⟨node, _, hget, -⟩ := hcall
    exact ⟨node, (getSin_run hget).1⟩
  have hzero : ZeroFrom v.fs i node.din.size := inodeOf_loaded hnode ▸ h.zero
  obtain ⟨node', hnode', -, ⟨-, hsize, hblocks⟩ | ⟨hno, -⟩ | ⟨hno, -⟩⟩ :=
    sfsTruncfile_outcome h.sound hnode hcall
  · have hsound : Sound True v.files fs' := (sfsTruncfile_spec h.sound hcall).1
    have hagrees : SizeAgrees node'.din := by
      unfold SizeAgrees
      rw [hsize]
      exact hblocks
    rw [exposesZeros_iff hsound hnode' hagrees (by omega), hsize]
    exact zeroFrom_truncfile h.sound hnode hzero hcall
  · cases hno
  · cases hno

-- ========================================================== an image

/-- Volumes with the same targets and block counts. -/
theorem Consistent.congr (h : Consistent v) (hsuper : fs'.super = v.fs.super)
    (hfreemap : fs'.freemap = v.fs.freemap)
    (hinode : ∀ i ∈ v.files, inodeOf fs' i = inodeOf v.fs i)
    (htarget : ∀ i ∈ v.files, ∀ pos, target fs' i pos = target v.fs i pos)
    (hloaded : ∀ {i node}, fs'.inodes i = some node → i ∈ v.files
      ∧ node.din.Fits
      ∧ (node.dirty = false → node.din = DiskInode.ofBytes (fs'.disk i))) :
    Consistent ⟨fs', v.files⟩ := by
  have hrefers : ∀ x b, Refers ⟨fs', v.files⟩ x b ↔ Refers v x b :=
    fun x b => refers_congr htarget x b
  have hbits : freeBits fs' = freeBits v.fs := by
    unfold freeBits
    rw [hsuper, hfreemap]
  constructor
  case nbits => rw [hfreemap, hsuper]; exact h.nbits
  case nwords => rw [hfreemap, hsuper]; exact h.nwords
  case blocks_lt => rw [hsuper]; exact h.blocks_lt
  case free_range => rw [hbits, hsuper]; exact h.free_range
  case unused_eq => rw [hbits, hsuper]; exact h.unused_eq
  case used_iff =>
    intro b
    rw [hfreemap, hsuper]
    simp only [hrefers]
    exact h.used_iff
  case refers_once =>
    intro x y b hx hy
    exact h.refers_once ((hrefers x b).1 hx) ((hrefers y b).1 hy)
  case refers_range =>
    intro x b hx
    rw [hsuper]
    exact h.refers_range ((hrefers x b).1 hx)
  case files_pos => exact h.files_pos
  case root => exact h.root
  case root_dir =>
    show (inodeOf fs' sfsBlknRoot).type = sfsTypeDir
    rw [hinode _ h.root]
    exact h.root_dir
  case loaded => exact hloaded
  case covered =>
    intro i hi pos index hpos hle
    show target fs' i pos = 0
    rw [htarget i hi]
    apply h.covered hi hpos
    rw [← hinode i hi]
    exact hle

/-- The volume of `longFs` with bytes in the first block of its file, which
is open. -/
def markedFs : SfsFs :=
  { longFs with
    disk := fun d => if d = 4 then fun _ => 0xFF else longDisk d
    inodes := fun i => if i = 3 then
      some { din := longInode, dirty := false, reclaimCount := 1,
             refCount := 1 }
      else none }

theorem markedFs_consistent : Consistent ⟨markedFs, {1, 3}⟩ := by
  have hinode : ∀ i ∈ ({1, 3} : Finset Nat),
      inodeOf markedFs i = inodeOf longFs i := by
    intro i hi
    have hor : i = 1 ∨ i = 3 := by
      simpa using hi
    rcases hor with rfl | rfl
    · exact inodeOf_congr rfl fun _ => rfl
    · exact longFs_file.symm
  refine longFs_consistent.congr rfl rfl hinode ?_ ?_
  · intro i hi pos
    apply target_congr (SameMap.of_eq (hinode i hi))
    intro hne j
    have hind : (inodeOf longFs i).indirect = 16 := by
      have hor : i = 1 ∨ i = 3 := by
        simpa using hi
      rcases hor with rfl | rfl
      · rw [longFs_root] at hne
        exact absurd rfl hne
      · rw [longFs_file]
        rfl
    rw [hind]
    rfl
  · intro i node hnode
    have hi : i = 3 := by
      by_contra hne
      rw [show markedFs.inodes i = none from if_neg hne] at hnode
      cases hnode
    subst hi
    cases hnode
    exact ⟨Finset.mem_insert_of_mem (Finset.mem_singleton_self 3),
      ⟨by decide, by decide, by decide, by decide, by decide, by decide⟩,
      fun _ => longFs_file.symm⟩

/-- A length of whole blocks cuts nothing off in the blocks that are kept. -/
theorem cutsZeros_blocks (fs : SfsFs) (i n : Nat) :
    CutsZeros fs i (n * sfsBlksize) := by
  intro o hle _ hlt
  exfalso
  unfold roundupDiv sfsBlksize at *
  omega

/-- Cut to its first block, the file shows zeros when it grows again. -/
theorem growth_exposes_zeros_marked : ∃ v,
    Run (CleanStep 3) ⟨markedFs, {1, 3}⟩ [(3, 4096)] v
      ∧ (inodeOf v.fs 3).size = 4096 ∧ ExposesZeros v 3 := by
  have hview : (sfsTruncfile 3 4096 markedFs).map
      (fun a => (inodeOf a.2 3).size) = some 4096 := by
    decide +kernel
  obtain ⟨⟨r, fs₁⟩, hshrink, hsize⟩ := Option.map_eq_some_iff.1 hview
  have hi : 3 ∈ ({1, 3} : Finset Nat) :=
    Finset.mem_insert_of_mem (Finset.mem_singleton_self 3)
  have hrun : Run (CleanStep 3) ⟨markedFs, {1, 3}⟩ [(3, 4096)]
      ⟨fs₁, {1, 3}⟩ :=
    .single ⟨.call hshrink, fun _ => cutsZeros_blocks markedFs 3 1⟩
  have hslack : ZeroFrom markedFs 3 (inodeOf markedFs 3).size := by
    intro o hle hne
    have hlt : o / 4096 < 13 :=
      (markedFs_consistent.sound True).blockAt_lt hi hne
    have hge : 13 * 4096 ≤ o := hle
    omega
  exact ⟨⟨fs₁, {1, 3}⟩, hrun, hsize,
    (growth_exposes_zeros markedFs_consistent hi hslack hrun).1⟩

/-- A byte cut off in the block that the file keeps is there again once the
file has grown over it. -/
theorem growth_exposes_marked : ∃ v v',
    Consistent ⟨markedFs, {1, 3}⟩
      ∧ Run TruncStep ⟨markedFs, {1, 3}⟩ [(3, 100)] v
      ∧ Run TruncStep v [(3, 200)] v'
      ∧ (inodeOf v.fs 3).size = 100 ∧ (inodeOf v'.fs 3).size = 200
      ∧ blockAt v'.fs 3 (150 / sfsBlksize) = 4
      ∧ fileByte v'.fs 3 150 = 0xFF := by
  have hview : ((sfsTruncfile 3 100 markedFs).bind fun a =>
      (sfsTruncfile 3 200 a.2).map fun b =>
        ([(inodeOf a.2 3).size, (inodeOf b.2 3).size,
          blockAt b.2 3 (150 / sfsBlksize)], fileByte b.2 3 150))
      = some ([100, 200, 4], 0xFF) := by
    decide +kernel
  obtain ⟨⟨r, fs₁⟩, hshrink, hview₁⟩ := Option.bind_eq_some_iff.1 hview
  obtain ⟨⟨r', fs₂⟩, hgrow, hout⟩ := Option.map_eq_some_iff.1 hview₁
  simp only [Prod.mk.injEq, List.cons.injEq] at hout
  obtain ⟨⟨hsize, hsize', hblock, -⟩, hbyte⟩ := hout
  exact ⟨⟨fs₁, {1, 3}⟩, ⟨fs₂, {1, 3}⟩, markedFs_consistent,
    .single (.call hshrink), .single (.call hgrow), hsize, hsize', hblock,
    hbyte⟩

end Ucore.Sfs
