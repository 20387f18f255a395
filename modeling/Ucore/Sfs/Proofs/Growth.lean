/-
What it takes to grow a file. One more block costs what `growthCost` says:
with as many free blocks the call gets them, with fewer it leaves everything
as it was. The costs of the blocks of a file add up, so the loop of
`sfs_truncfile` ends where the free blocks do.
-/
import Ucore.Sfs.Proofs.Resize
import Ucore.Sfs.Proofs.Returns

namespace Ucore.Sfs

open Call (Returns)

variable {fs fs' fs₁ : SfsFs} {files held : Finset Nat} {i index : Nat}
  {node : SfsInode} {strict : Prop}

-- ============================================================= costs

theorem blockAt_direct (h : index < sfsNdirect) :
    blockAt fs i index = (inodeOf fs i).direct ⟨index, h⟩ := by
  rw [blockAt, dif_pos h]
  rfl

theorem blockAt_entry (h : sfsNdirect ≤ index)
    (hlt : index - sfsNdirect < sfsBlkNentry) :
    blockAt fs i index = target fs i (.entry ⟨index - sfsNdirect, hlt⟩) := by
  rw [blockAt, dif_neg (Nat.not_lt.2 h), dif_pos hlt]

theorem blockAt_past (h : maxBlocks ≤ index) : blockAt fs i index = 0 := by
  unfold maxBlocks at h
  rw [blockAt, dif_neg (by omega), dif_neg (by omega)]

/-- The block at an index is a target. -/
theorem blockAt_eq_target {pos : Pos} (h : pos.index = some index) :
    blockAt fs i index = target fs i pos := by
  cases pos with
  | self => cases h
  | direct k =>
      cases h
      rw [blockAt, dif_pos k.isLt]
  | indirect => cases h
  | entry j =>
      cases h
      have hj := j.isLt
      rw [blockAt, dif_neg (by omega), dif_pos (by omega)]
      simp only [Nat.add_sub_cancel_left]

theorem exists_pos (h : index < maxBlocks) :
    ∃ pos : Pos, pos.index = some index := by
  unfold maxBlocks at h
  by_cases hlt : index < sfsNdirect
  · exact ⟨.direct ⟨index, hlt⟩, rfl⟩
  · refine ⟨.entry ⟨index - sfsNdirect, by omega⟩, congrArg some ?_⟩
    show sfsNdirect + (index - sfsNdirect) = index
    omega

theorem blockAt_congr (h : ∀ pos : Pos, pos.index = some index →
    target fs' i pos = target fs i pos) :
    blockAt fs' i index = blockAt fs i index := by
  by_cases hlt : index < maxBlocks
  · obtain ⟨pos, hpos⟩ := exists_pos hlt
    rw [blockAt_eq_target hpos, blockAt_eq_target hpos, h pos hpos]
  · rw [blockAt_past (Nat.not_lt.1 hlt), blockAt_past (Nat.not_lt.1 hlt)]

theorem growthCost_one : growthCost fs i index (index + 1)
    = (if blockAt fs i index = 0 then 1 else 0)
      + if sfsNdirect ≤ index ∧ (inodeOf fs i).indirect = 0 then 1 else 0 := by
  have hone : Finset.Ico index (index + 1) = {index} := by
    ext k
    rw [Finset.mem_Ico, Finset.mem_singleton]
    omega
  have hand : (index < index + 1 ∧ sfsNdirect < index + 1
      ∧ (inodeOf fs i).indirect = 0)
      ↔ sfsNdirect ≤ index ∧ (inodeOf fs i).indirect = 0 := by
    constructor
    · exact fun h => ⟨Nat.lt_succ_iff.1 h.2.1, h.2.2⟩
    · exact fun h => ⟨Nat.lt_succ_self index, Nat.lt_succ_iff.2 h.1, h.2⟩
  unfold growthCost
  rw [hone, Finset.filter_singleton, if_congr hand rfl rfl]
  split
  case isTrue => rfl
  case isFalse => rfl

/-- The costs of a first block and of the others. -/
theorem growthCost_succ {lo hi : Nat} (hlt : lo < hi)
    (hblocks : ∀ k, k ≠ lo → blockAt fs' i k = blockAt fs i k)
    (hlow : lo < sfsNdirect →
      (inodeOf fs' i).indirect = (inodeOf fs i).indirect)
    (hhigh : sfsNdirect ≤ lo → (inodeOf fs' i).indirect ≠ 0) :
    growthCost fs i lo hi
      = growthCost fs i lo (lo + 1) + growthCost fs' i (lo + 1) hi := by
  have hIco : Finset.Ico lo hi = insert lo (Finset.Ico (lo + 1) hi) := by
    ext k
    rw [Finset.mem_insert, Finset.mem_Ico, Finset.mem_Ico]
    omega
  have hrest : (Finset.Ico (lo + 1) hi).filter (fun k => blockAt fs' i k = 0)
      = (Finset.Ico (lo + 1) hi).filter fun k => blockAt fs i k = 0 := by
    apply Finset.filter_congr
    intro k hk
    rw [Finset.mem_Ico] at hk
    rw [hblocks k (by omega)]
  have hnot : lo ∉ (Finset.Ico (lo + 1) hi).filter
      fun k => blockAt fs i k = 0 := by
    rw [Finset.mem_filter, Finset.mem_Ico]
    omega
  have hcard : ((Finset.Ico lo hi).filter fun k => blockAt fs i k = 0).card
      = (if blockAt fs i lo = 0 then 1 else 0)
        + ((Finset.Ico (lo + 1) hi).filter
          fun k => blockAt fs i k = 0).card := by
    rw [hIco, Finset.filter_insert]
    split
    case isTrue => rw [Finset.card_insert_of_notMem hnot, Nat.add_comm]
    case isFalse => rw [Nat.zero_add]
  have hindirect : (if lo < hi ∧ sfsNdirect < hi
        ∧ (inodeOf fs i).indirect = 0 then 1 else 0)
      = (if sfsNdirect ≤ lo ∧ (inodeOf fs i).indirect = 0 then 1 else 0)
        + if lo + 1 < hi ∧ sfsNdirect < hi
          ∧ (inodeOf fs' i).indirect = 0 then 1 else 0 := by
    by_cases hlo : sfsNdirect ≤ lo
    · have hne := hhigh hlo
      have hhi : sfsNdirect < hi := Nat.lt_of_le_of_lt hlo hlt
      simp [hlo, hne, hlt, hhi]
    · have heq := hlow (Nat.not_le.1 hlo)
      rw [heq]
      by_cases hhi : sfsNdirect < hi
      · have hlt' : lo + 1 < hi := by omega
        simp [hlo, hhi, hlt, hlt']
      · simp [hlo, hhi]
  rw [growthCost_one]
  unfold growthCost
  rw [hcard, hindirect, hrest]
  omega

-- ===================================================== the block map

theorem bmapGetOut_returns {ino : Nat} (h : ino ≠ 0 → Used fs ino)
    (hmap : MapOk fs) : Returns (bmapGetOut ino) fs := by
  unfold bmapGetOut
  by_cases hne : ino = 0
  · rw [if_neg (not_not_intro hne)]
    exact Returns.pure
  · rw [if_pos hne]
    exact (h hne).inuse hmap Returns.pure

theorem getSin_eq (hnode : fs.inodes i = some node) :
    getSin i fs = some (node, fs) := by
  unfold getSin
  simp only [Call.bind_eq_some, Call.get_eq_some, Call.ofOption_eq_some]
  exact ⟨fs, fs, ⟨rfl, rfl⟩, hnode, rfl⟩

theorem Used.withNode {b : Nat} {node' : SfsInode} (h : Used fs b) :
    Used (withNode fs i node') b := h

theorem MapOk.withNode {node' : SfsInode} (h : MapOk fs) :
    MapOk (withNode fs i node') :=
  ⟨h.nbits, h.nwords, h.blocks_lt, h.free_range, h.unused_eq⟩

/-- What `sfs_bmap_get_sub_nolock` leaves is accounted for, if its blocks
are in hand. -/
theorem Inv.map_sub {r : Except Err (Nat × Nat)} {j : Nat}
    (h : Inv held ⟨fs, files⟩) (hnode : fs.inodes i = some node)
    (hrun : sfsBmapGetSubNolock node.din.indirect j true fs
      = some (r, fs')) : MapOk fs' := by
  obtain ⟨-, -, -, ⟨hinv, -⟩ | ⟨_, _, _, -, -, -, -, -, -, hinv, -⟩⟩ :=
    sfsBmapGetSubNolock_spec h hnode hrun
  · exact hinv.map
  · exact hinv.map

theorem sfsBmapGetNolock_returns (h : Inv held ⟨fs, files⟩)
    (hnode : fs.inodes i = some node) (hindex : index < maxBlocks) :
    Returns (sfsBmapGetNolock i index true) fs := by
  unfold maxBlocks at hindex
  unfold sfsBmapGetNolock
  apply (Returns.bind_iff (getSin_eq hnode)).2
  dsimp only
  split
  case isTrue hlt =>
      split
      case isTrue =>
          refine Returns.bind (sfsBlockAlloc_returns h) fun o fs₁ halloc => ?_
          rcases sfsBlockAlloc_spec h halloc with ⟨rfl, -⟩
            | ⟨ino, rfl, -, -, -, -, hinv, -⟩
          · exact Returns.pure
          · have hused := hinv.used_held (Finset.mem_insert_self ino held)
            apply Returns.modify
            exact bmapGetOut_returns (fun _ => hused.withNode)
              hinv.map.withNode
      case isFalse =>
          exact bmapGetOut_returns (fun hne => h.used_direct hnode hne) h.map
  case isFalse =>
      rw [if_pos (by omega)]
      refine Returns.bind (sfsBmapGetSubNolock_returns h hnode (by omega))
        fun o fs₁ hsub => ?_
      have hmap := h.map_sub hnode hsub
      obtain ⟨-, hused⟩ := sfsBmapGetSubNolock_takes h hnode hsub
      cases o with
      | error e => exact Returns.pure
      | ok a =>
          obtain ⟨ent, ino⟩ := a
          have hout := hused ent ino rfl
          dsimp only
          split
          case isFalse =>
              exact bmapGetOut_returns (fun _ => hout.2) hmap
          case isTrue hne =>
              have hzero : node.din.indirect = 0 := by
                obtain ⟨-, -, -, ⟨-, hent, -⟩ | ⟨_, _, _, -, -, hzero, -⟩⟩ :=
                  sfsBmapGetSubNolock_spec h hnode hsub
                · exact absurd (hent ent ino rfl) hne
                · exact hzero
              apply Returns.assert hzero
              apply Returns.modify
              exact bmapGetOut_returns (fun _ => hout.2.withNode) hmap.withNode

/-- Past the indirect block `sfs_bmap_get_nolock` panics. -/
theorem sfsBmapGetNolock_panics {create : Bool} (hindex : maxBlocks ≤ index) :
    ¬ Returns (sfsBmapGetNolock i index create) fs := by
  unfold maxBlocks at hindex
  rintro ⟨r, fs', hrun⟩
  unfold sfsBmapGetNolock at hrun
  rw [Call.bind_eq_some] at hrun
  obtain ⟨_, _, -, hrun⟩ := hrun
  dsimp only at hrun
  rw [dif_neg (by omega), if_neg (by omega)] at hrun
  exact Call.panic_ne_some hrun

/-- What giving an index a block does to the inode. -/
structure Mapped (index : Nat) (ok : Bool) (node node' : SfsInode) : Prop where
  size : node'.din.size = node.din.size
  blocks : node'.din.blocks = node.din.blocks
  type : node'.din.type = node.din.type
  same : ok = false → node' = node
  low : index < sfsNdirect → node'.din.indirect = node.din.indirect
  high : ok = true → sfsNdirect ≤ index → node'.din.indirect ≠ 0

theorem sfsBmapGetNolock_takes {r : Except Err Nat}
    (h : Inv held ⟨fs, files⟩) (hnode : fs.inodes i = some node)
    (hrun : sfsBmapGetNolock i index true fs = some (r, fs')) :
    Takes (growthCost fs i index (index + 1)) r fs fs'
      ∧ (∀ ino, r = .ok ino → Used fs' ino)
      ∧ ∃ node', fs'.inodes i = some node'
        ∧ Mapped index r.isOk node node' := by
  rw [growthCost_one, inodeOf_loaded hnode]
  unfold sfsBmapGetNolock at hrun
  rw [Call.bind_eq_some] at hrun
  obtain ⟨n, _, hget, hrun⟩ := hrun
  obtain ⟨hn, hsame⟩ := getSin_run hget
  rw [hnode] at hn
  cases hn
  rw [hsame] at hrun
  dsimp only at hrun
  split at hrun
  case isTrue hlt =>
      have hlow : ¬ (sfsNdirect ≤ index ∧ node.din.indirect = 0) := fun hand =>
        absurd hlt (Nat.not_lt.2 hand.1)
      rw [blockAt_direct hlt, inodeOf_loaded hnode, if_neg hlow]
      have hkept : ∀ ok, Mapped index ok node node := fun ok =>
        ⟨rfl, rfl, rfl, fun _ => rfl, fun _ => rfl, fun _ hge =>
          absurd hlt (Nat.not_lt.2 hge)⟩
      split at hrun
      case isTrue hnew =>
          rw [if_pos hnew.1]
          rw [Call.bind_eq_some] at hrun
          obtain ⟨o, fs₁, halloc, hrun⟩ := hrun
          rcases sfsBlockAlloc_spec h halloc with ⟨rfl, rfl, hfull⟩
            | ⟨ino, rfl, -, -, -, -, hinv, hinodes, -, -, -, -, hcount⟩
          · dsimp only at hrun
            rw [Call.pure_eq_some] at hrun
            obtain ⟨rfl, rfl⟩ := hrun
            exact ⟨Takes.full hfull Nat.one_pos, (fun _ h => by cases h), node,
              hnode, hkept _⟩
          · dsimp only at hrun
            rw [Call.bind_eq_some] at hrun
            obtain ⟨_, fs₂, hset, hrun⟩ := hrun
            obtain ⟨rfl, rfl⟩ := bmapGetOut_run hrun
            obtain rfl := setSin_run hset
            have hused := hinv.used_held (Finset.mem_insert_self ino held)
            refine ⟨⟨fun _ => hcount, fun h => by cases h⟩, fun ino' heq => ?_,
              _, withNode_self, rfl, rfl, rfl, (fun h => by cases h), fun _ => rfl,
              fun _ hge => absurd hlt (Nat.not_lt.2 hge)⟩
            cases heq
            exact hused.withNode
      case isFalse hold =>
          have hne : node.din.direct ⟨index, hlt⟩ ≠ 0 := fun hzero =>
            hold ⟨hzero, rfl⟩
          rw [if_neg hne]
          obtain ⟨rfl, rfl⟩ := bmapGetOut_run hrun
          refine ⟨Takes.none, fun ino heq => ?_, node, hnode, hkept _⟩
          cases heq
          exact h.used_direct hnode hne
  case isFalse hge =>
      have hge' := Nat.not_lt.1 hge
      split at hrun
      case isFalse => exact absurd hrun Call.panic_ne_some
      case isTrue hlt =>
          -- the cost of the block, told from the inode
          have hcost : (if blockAt fs i index = 0 then 1 else 0)
              + (if sfsNdirect ≤ index ∧ node.din.indirect = 0 then 1 else 0)
              = if node.din.indirect = 0 then 2
                else if entryAt fs.disk node.din.indirect (index - sfsNdirect)
                  = 0 then 1 else 0 := by
            rw [blockAt_entry hge' hlt, target_entry, inodeOf_loaded hnode]
            by_cases hind : node.din.indirect = 0
            · simp [hind, hge']
            · simp [hind]
          rw [hcost]
          rw [Call.bind_eq_some] at hrun
          obtain ⟨o, fs₁, hsub, hrun⟩ := hrun
          obtain ⟨htakes, hused⟩ := sfsBmapGetSubNolock_takes h hnode hsub
          obtain ⟨hinodes, -⟩ := sfsBmapGetSubNolock_spec h hnode hsub
          have hnode₁ : fs₁.inodes i = some node :=
            (congrFun hinodes i).trans hnode
          cases o with
          | error e =>
              dsimp only at hrun
              rw [Call.pure_eq_some] at hrun
              obtain ⟨rfl, rfl⟩ := hrun
              exact ⟨⟨(fun h => by cases h), htakes.error⟩,
                (fun _ h => by cases h), node, hnode₁, rfl, rfl,
                rfl, fun _ => rfl, fun _ => rfl, fun h => by cases h⟩
          | ok a =>
              obtain ⟨ent, ino⟩ := a
              obtain ⟨hent, hino⟩ := hused ent ino rfl
              have hcount := htakes.ok rfl
              dsimp only at hrun
              split at hrun
              case isFalse heq =>
                  rw [not_not] at heq
                  obtain ⟨rfl, rfl⟩ := bmapGetOut_run hrun
                  refine ⟨⟨fun _ => hcount, fun h => by cases h⟩,
                    fun ino' hok => ?_, node,
                    hnode₁, rfl, rfl, rfl, fun _ => rfl, fun _ => rfl,
                    fun _ _ => heq ▸ hent⟩
                  cases hok
                  exact hino
              case isTrue hne =>
                  simp only [Call.bind_eq_some, Call.assert_eq_some] at hrun
                  obtain ⟨_, _, ⟨-, rfl⟩, _, fs₂, hset, hrun⟩ := hrun
                  obtain ⟨rfl, rfl⟩ := bmapGetOut_run hrun
                  obtain rfl := setSin_run hset
                  refine ⟨⟨fun _ => hcount, fun h => by cases h⟩,
                    fun ino' hok => ?_, _,
                    withNode_self, rfl, rfl, rfl, (fun h => by cases h),
                    fun hlow => absurd hlow hge, fun _ _ => hent⟩
                  cases hok
                  exact hino.withNode

-- =========================================================== growing

/-- A store to an inode that keeps its map changes no target. -/
theorem target_withNode {node' : SfsInode} (hnode : fs.inodes i = some node)
    (hmap : SameMap node'.din node.din) (i' : Nat) (pos : Pos) :
    target (withNode fs i node') i' pos = target fs i' pos := by
  have hsame : SameMap (inodeOf (withNode fs i node') i') (inodeOf fs i') := by
    rw [inodeOf_withNode]
    split
    case isTrue heq =>
        rw [heq, inodeOf_loaded hnode]
        exact hmap
    case isFalse => exact SameMap.refl _
  exact target_congr hsame (fun _ _ => rfl) pos

/-- What adding a block to a file, or failing to, does to the inode and its
map. -/
structure Added (files : Finset Nat) (i : Nat) (ok : Bool)
    (node node' : SfsInode) (fs fs' : SfsFs) : Prop where
  loaded : fs'.inodes i = some node'
  size : node'.din.size = node.din.size
  type : node'.din.type = node.din.type
  blocks : node'.din.blocks = node.din.blocks + ok.toNat
  low : node.din.blocks < sfsNdirect →
    node'.din.indirect = node.din.indirect
  high : ok = true → sfsNdirect ≤ node.din.blocks → node'.din.indirect ≠ 0
  targets : ∀ {i'}, i' ∈ files → ∀ {pos},
    (i' = i → ¬ (ok = true ∧ AtIndex node.din.blocks pos)) →
    target fs' i' pos = target fs i' pos

/-- `sfs_bmap_load_nolock` of the block after the last returns while the map
has place for it. -/
theorem loadBlock_returns (h : Sound strict files fs)
    (hnode : fs.inodes i = some node) :
    Returns (sfsBmapLoadNolock i node.din.blocks) fs
      ↔ node.din.blocks < maxBlocks := by
  unfold sfsBmapLoadNolock
  rw [Returns.bind_iff (getSin_eq hnode), Returns.assert_iff]
  rw [decide_eq_true rfl]
  constructor
  · rintro ⟨_, hmap⟩
    by_contra hfull
    exact sfsBmapGetNolock_panics (Nat.not_lt.1 hfull) hmap.of_bind
  · intro hlt
    refine ⟨Nat.le_refl _, ?_⟩
    refine Returns.bind (sfsBmapGetNolock_returns h.inv hnode hlt)
      fun o fs₁ hmap => ?_
    obtain ⟨hinv, -⟩ := sfsBmapGetNolock_spec h.inv hmap
    obtain ⟨-, hused, node₁, hnode₁, -⟩ :=
      sfsBmapGetNolock_takes h.inv hnode hmap
    cases o with
    | error e => exact Returns.pure
    | ok ino =>
        apply (hused ino rfl).inuse hinv.map
        rw [if_pos rfl]
        apply (Returns.bind_iff (getSin_eq hnode₁)).2
        exact Returns.modify Returns.pure

theorem loadBlock_takes {r : Except Err Nat} (h : Sound strict files fs)
    (hnode : fs.inodes i = some node)
    (hrun : sfsBmapLoadNolock i node.din.blocks fs = some (r, fs')) :
    Takes (growthCost fs i node.din.blocks (node.din.blocks + 1)) r fs fs'
      ∧ ∃ node', Added files i r.isOk node node' fs fs' := by
  unfold sfsBmapLoadNolock at hrun
  simp only [Call.bind_eq_some, Call.assert_eq_some] at hrun
  obtain ⟨n, _, hget, _, _, ⟨-, rfl⟩, o, fs₁, hmap, hrun⟩ := hrun
  obtain ⟨hn, hsame⟩ := getSin_run hget
  rw [hnode] at hn
  cases hn
  rw [hsame, decide_eq_true rfl] at hmap
  obtain ⟨hinv, hchange, -⟩ := sfsBmapGetNolock_spec h.inv hmap
  obtain ⟨htakes, -, node₁, hnode₁, hmapped⟩ :=
    sfsBmapGetNolock_takes h.inv hnode hmap
  cases o with
  | error e =>
      dsimp only at hrun
      rw [Call.pure_eq_some] at hrun
      obtain ⟨rfl, rfl⟩ := hrun
      refine ⟨⟨(fun h => by cases h), htakes.error⟩, node₁, hnode₁, hmapped.size,
        hmapped.type,
        hmapped.blocks, hmapped.low, (fun h => by cases h), fun hin pos _ => ?_⟩
      exact hchange.targets hin fun _ hp => by cases hp.2.1
  | ok ino =>
      have hcount := htakes.ok rfl
      dsimp only at hrun
      rw [if_pos (decide_eq_true rfl)] at hrun
      simp only [Call.bind_eq_some, Call.assert_eq_some, Call.pure_eq_some]
        at hrun
      obtain ⟨_, fs₂, hinuse, _, _, ⟨-, rfl⟩, n₁, _, hget₁, _, _, hset, rfl,
        rfl⟩ := hrun
      obtain ⟨hsame₂, -⟩ := sfsBlockInuse_run hinuse
      obtain ⟨hn₁, hsame₃⟩ := getSin_run hget₁
      rw [hsame₂] at hn₁ hsame₃
      rw [hnode₁] at hn₁
      cases hn₁
      rw [hsame₃] at hset
      obtain rfl := setSin_run hset
      obtain ⟨hi, hfits, hclean⟩ := hinv.loaded hnode₁
      refine ⟨⟨fun _ => hcount, fun h => by cases h⟩, _, withNode_self,
        hmapped.size,
        hmapped.type, congrArg (· + 1) hmapped.blocks, hmapped.low,
        hmapped.high, fun hin pos hno => ?_⟩
      have hkept : SameMap (node₁.withBlocks (node₁.din.blocks + 1)).din
          node₁.din := ⟨rfl, rfl, rfl⟩
      refine (target_withNode hnode₁ hkept _ pos).trans ?_
      exact hchange.targets hin fun heq hp => hno heq ⟨rfl, hp.2.2⟩

theorem Added.blockAt {node' : SfsInode} {ok : Bool} {k : Nat}
    (h : Added files i ok node node' fs fs') (hi : i ∈ files)
    (hk : k ≠ node.din.blocks) : blockAt fs' i k = blockAt fs i k := by
  apply blockAt_congr
  intro pos hpos
  apply h.targets hi
  rintro - ⟨-, rfl | hat⟩
  · cases hpos
  · exact hk (Option.some.inj (hpos.symm.trans hat))

theorem Added.cost {node' : SfsInode} {hi : Nat}
    (h : Added files i true node node' fs fs') (hnode : fs.inodes i = some node)
    (hin : i ∈ files) (hlt : node.din.blocks < hi) :
    growthCost fs i node.din.blocks hi
      = growthCost fs i node.din.blocks (node.din.blocks + 1)
        + growthCost fs' i (node.din.blocks + 1) hi := by
  refine growthCost_succ hlt (fun k hk => h.blockAt hin hk) (fun hlow => ?_)
    fun hhigh => ?_
  · rw [inodeOf_loaded h.loaded, inodeOf_loaded hnode]
    exact h.low hlow
  · rw [inodeOf_loaded h.loaded]
    exact h.high rfl hhigh

theorem growthCost_self : growthCost fs i index index = 0 := by
  unfold growthCost
  simp

/-- The first of several blocks costs no more than all of them. -/
theorem growthCost_first_le (fs : SfsFs) (i : Nat) {hi : Nat}
    (hlt : index < hi) :
    growthCost fs i index (index + 1) ≤ growthCost fs i index hi := by
  rw [growthCost_one]
  unfold growthCost
  apply Nat.add_le_add
  · split
    case isFalse => exact Nat.zero_le _
    case isTrue hzero =>
        apply Finset.card_pos.2
        refine ⟨index, Finset.mem_filter.2 ⟨?_, hzero⟩⟩
        exact Finset.mem_Ico.2 ⟨Nat.le_refl _, hlt⟩
  · split
    case isFalse => exact Nat.zero_le _
    case isTrue hind =>
        rw [if_pos ⟨hlt, Nat.lt_of_le_of_lt hind.1 hlt, hind.2⟩]

/-- The loop that adds blocks returns while they fit in the map, or where
the free blocks run out before it is full. -/
theorem growFile_returns : ∀ {n : Nat} {fs : SfsFs} {node : SfsInode},
    Sound strict files fs → fs.inodes i = some node →
    (Returns (growFile i n node.din.blocks) fs
      ↔ n = 0 ∨ node.din.blocks + n ≤ maxBlocks
        ∨ node.din.blocks < maxBlocks ∧ fs.super.unusedBlocks
          < growthCost fs i node.din.blocks maxBlocks) := by
  intro n
  induction n with
  | zero =>
      intro fs node _ _
      rw [growFile]
      exact ⟨fun _ => Or.inl rfl, fun _ => Returns.pure⟩
  | succ n ih =>
      intro fs node h hnode
      rw [growFile]
      by_cases hlt : node.din.blocks < maxBlocks
      · obtain ⟨r, fs₁, hload⟩ := (loadBlock_returns h hnode).2 hlt
        obtain ⟨htakes, node₁, hadded⟩ := loadBlock_takes h hnode hload
        obtain ⟨hsound, -⟩ := sfsBmapLoadNolock_spec h hload
        rw [Returns.bind_iff hload]
        cases r with
        | error e =>
            -- the first block is not to be had, so neither are all
            obtain ⟨hfew, -, -⟩ := htakes.error rfl
            have hle := growthCost_first_le fs i hlt
            constructor
            · intro _
              exact Or.inr (Or.inr ⟨hlt, by omega⟩)
            · exact fun _ => Returns.pure
        | ok ino =>
            have hcount := htakes.ok rfl
            have hin := (h.inv.loaded hnode).1
            have hcost := hadded.cost hnode hin hlt
            have hblocks : node₁.din.blocks = node.din.blocks + 1 :=
              hadded.blocks
            dsimp only
            rw [← hblocks, ih hsound hadded.loaded, hblocks]
            by_cases hlast : node.din.blocks + 1 = maxBlocks
            · have hnone : growthCost fs₁ i (node.din.blocks + 1) maxBlocks
                  = 0 := by
                rw [hlast]
                exact growthCost_self
              omega
            · omega
      · have hno := mt (loadBlock_returns h hnode).1 hlt
        constructor
        · exact fun hret => absurd hret.of_bind hno
        · intro hcond
          omega

/-- What the loop leaves: the file has all the blocks, or there were too few
free ones. Then it has some of the blocks, or everything is as it was. -/
theorem growFile_outcome {r : Except Err Unit} :
    ∀ {n : Nat} {fs : SfsFs} {node : SfsInode},
    Sound strict files fs → fs.inodes i = some node →
    growFile i n node.din.blocks fs = some (r, fs') →
    ∃ node', fs'.inodes i = some node' ∧ node'.din.size = node.din.size
      ∧ node'.din.type = node.din.type
      ∧ (r = .ok () ∧ node'.din.blocks = node.din.blocks + n
          ∧ growthCost fs i node.din.blocks (node.din.blocks + n)
            ≤ fs.super.unusedBlocks
        ∨ r.isOk = false ∧ 0 < n ∧ fs.super.unusedBlocks
            < growthCost fs i node.din.blocks (node.din.blocks + n)
          ∧ (NoneToTake fs i ∧ Restored fs fs' i
            ∨ ¬ NoneToTake fs i ∧ node.din.blocks < node'.din.blocks)) := by
  intro n
  induction n with
  | zero =>
      intro fs node h hnode hrun
      rw [growFile, Call.pure_eq_some] at hrun
      obtain ⟨rfl, rfl⟩ := hrun
      refine ⟨node, hnode, rfl, rfl, Or.inl ⟨rfl, rfl, ?_⟩⟩
      rw [Nat.add_zero, growthCost_self]
      exact Nat.zero_le _
  | succ n ih =>
      intro fs node h hnode hrun
      rw [growFile, Call.bind_eq_some] at hrun
      obtain ⟨o, fs₁, hload, hrun⟩ := hrun
      obtain ⟨htakes, node₁, hadded⟩ := loadBlock_takes h hnode hload
      obtain ⟨hsound, -⟩ := sfsBmapLoadNolock_spec h hload
      have hin := (h.inv.loaded hnode).1
      have hlt : node.din.blocks < node.din.blocks + (n + 1) := by omega
      have hblocks₁ := hadded.blocks
      cases o with
      | error e =>
          obtain ⟨hfew, hunused, hbits⟩ := htakes.error rfl
          have hle := growthCost_first_le fs i hlt
          dsimp only at hrun
          rw [Call.pure_eq_some] at hrun
          obtain ⟨rfl, rfl⟩ := hrun
          refine ⟨node₁, hadded.loaded, hadded.size, hadded.type, Or.inr
            ⟨rfl, Nat.succ_pos n, Nat.lt_of_lt_of_le hfew hle, Or.inl ⟨?_, ?_⟩⟩⟩
          · unfold NoneToTake
            rw [inodeOf_loaded hnode]
            exact hfew
          · refine ⟨?_, ?_, fun pos => ?_, hbits, hunused⟩
            · rw [inodeOf_loaded hadded.loaded, inodeOf_loaded hnode]
              exact hadded.size
            · rw [inodeOf_loaded hadded.loaded, inodeOf_loaded hnode]
              exact hblocks₁
            · exact hadded.targets hin fun _ hok => by cases hok.1
      | ok ino =>
          have hcount := htakes.ok rfl
          have hcost := hadded.cost hnode hin hlt
          have hfirst : ¬ NoneToTake fs i := by
            unfold NoneToTake
            rw [inodeOf_loaded hnode]
            dsimp only
            omega
          have hsum : node.din.blocks + 1 + n = node.din.blocks + (n + 1) := by
            omega
          dsimp only at hrun
          change node₁.din.blocks = node.din.blocks + 1 at hblocks₁
          rw [← hblocks₁] at hrun
          obtain ⟨node', hnode', hsize, htype, hout⟩ :=
            ih hsound hadded.loaded hrun
          rw [hblocks₁, hsum] at hout
          refine ⟨node', hnode', hsize.trans hadded.size,
            htype.trans hadded.type, ?_⟩
          rcases hout with ⟨rfl, hblocks, hle⟩ | ⟨herror, -, hfew, hleft⟩
          · exact Or.inl ⟨rfl, hblocks, by omega⟩
          · refine Or.inr ⟨herror, Nat.succ_pos n, by omega,
              Or.inr ⟨hfirst, ?_⟩⟩
            rcases hleft with ⟨-, hrestored⟩ | ⟨-, hmore⟩
            · have hsame := hrestored.blocks
              rw [inodeOf_loaded hnode', inodeOf_loaded hadded.loaded] at hsame
              omega
            · omega

end Ucore.Sfs
