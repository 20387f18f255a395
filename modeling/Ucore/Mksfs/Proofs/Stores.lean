/-
What each store of `append_block` brings to a place.

A new block of block numbers is cleared, so that it brings no data with it; a
word is stored in a block that stands at one place only.
-/
import Ucore.Mksfs.Proofs.Owned

namespace Ucore.Mksfs

open Sfs

variable {v v' : View} {ino buf : Nat → Prop} {held : Finset Nat}
  {lo hi a b c i j n w : Nat} {din : DiskInode} {p : Place}

namespace View

-- ============================================================ inodes

theorem target_congr (hdirect : (v'.din i).direct = (v.din i).direct)
    (hind : (v'.din i).indirect = (v.din i).indirect)
    (hdb : v'.dbIndirect i = v.dbIndirect i)
    (hword : ∀ d w, v'.wordAt d w = v.wordAt d w) :
    v'.target i p = v.target i p := by
  cases p with
  | self => rfl
  | indirect => exact hind
  | dbIndirect => exact hdb
  | dbEntry a =>
      show (if _ then _ else _) = if _ then _ else _
      rw [hdb, hword]
  | data n =>
      show v'.dataAt i n = v.dataAt i n
      unfold dataAt
      simp only [hdirect, hind, hdb, hword]

theorem setInode_din : (v.setInode i din a).din i = din := Function.update_self ..

theorem setInode_dbIndirect : (v.setInode i din a).dbIndirect i = a :=
  Function.update_self ..

theorem target_setInode_ne (hj : j ≠ i) (p : Place) :
    (v.setInode i din a).target j p = v.target j p := by
  have hdin : (v.setInode i din a).din j = v.din j := Function.update_of_ne hj ..
  refine target_congr ?_ ?_ (Function.update_of_ne hj ..) fun _ _ => rfl
  · rw [hdin]
  · rw [hdin]

/-- The index of a block behind a doubly indirect block is that of an entry and
a word. -/
theorem entry_lt (hlo : sfsL1Nblks ≤ n) (hhi : n < sfsL2Nblks) :
    (n - sfsL1Nblks) / sfsBlkNentry < sfsBlkNentry := by
  have hlt : n - sfsL1Nblks < sfsBlkNentry * sfsBlkNentry := by
    unfold sfsL2Nblks at hhi
    omega
  exact Nat.div_lt_of_lt_mul hlt

theorem dataAt_direct (hn : n < sfsL0Nblks) :
    v.dataAt i n = (v.din i).direct ⟨n, hn⟩ := dif_pos hn

theorem dataAt_indirect (hlo : sfsL0Nblks ≤ n) (hhi : n < sfsL1Nblks) :
    v.dataAt i n = v.wordAt (v.din i).indirect (n - sfsL0Nblks) := by
  unfold dataAt
  rw [dif_neg (Nat.not_lt.2 hlo), if_pos hhi]

theorem dataAt_dbIndirect (hlo : sfsL1Nblks ≤ n) (hhi : n < sfsL2Nblks) :
    v.dataAt i n = v.wordAt (v.wordAt (v.dbIndirect i)
      ((n - sfsL1Nblks) / sfsBlkNentry)) ((n - sfsL1Nblks) % sfsBlkNentry) := by
  have hlo' : ¬ n < sfsL0Nblks := by
    unfold sfsL1Nblks at hlo
    omega
  unfold dataAt
  rw [dif_neg hlo', if_neg (Nat.not_lt.2 hlo), if_pos hhi]

theorem dataAt_past (hn : sfsL2Nblks ≤ n) : v.dataAt i n = 0 := by
  have hle : sfsL1Nblks ≤ sfsL2Nblks := Nat.le_add_left _ _
  have hlo : ¬ n < sfsL0Nblks := by
    unfold sfsL1Nblks at hle
    omega
  unfold dataAt
  rw [dif_neg hlo, if_neg (by omega), if_neg (Nat.not_lt.2 hn)]

theorem dataAt_setWord_below (hind : (v.din i).indirect ≠ c)
    (hn : n < sfsL1Nblks) : (v.setWord c w b).dataAt i n = v.dataAt i n := by
  rcases Nat.lt_or_ge n sfsL0Nblks with hlt | hge
  · rw [dataAt_direct hlt, dataAt_direct hlt]
    rfl
  · rw [dataAt_indirect hge hn, dataAt_indirect hge hn]
    exact wordAt_setWord_ne hind ..

end View

-- ============================================================ stores

/-- Where a block stands, it stands at that place. -/
def Sole (v : View) (ino : Nat → Prop) (x : Nat × Place) (c : Nat) : Prop :=
  ∀ i, ino i → ∀ p, v.target i p = c → (i, p) = x

/-- A block stands nowhere. -/
def Nowhere (v : View) (ino : Nat → Prop) (c : Nat) : Prop :=
  ∀ i, ino i → ∀ p, v.target i p ≠ c

theorem Owned.nowhere (h : Owned v ino buf held lo hi) (hc : c ∈ held)
    (hne : c ≠ 0) : Nowhere v ino c :=
  fun _ hino p => h.target_ne hc hino p hne

theorem Owned.sole (h : Owned v ino buf held lo hi) (hi' : ino i)
    (hne : v.target i p ≠ 0) : Sole v ino (i, p) (v.target i p) := by
  intro j hj q heq
  obtain ⟨rfl, rfl⟩ := h.inj hi' hj hne heq.symm
  rfl

/-- A cleared block that stands nowhere changes nothing. -/
theorem Nowhere.target_clear (h : Nowhere v ino c) (hino : ino j) (p : Place) :
    (v.clear c).target j p = v.target j p :=
  View.target_of_word rfl rfl (fun _ hd w => View.wordAt_clear hd w)
    fun p _ => h j hino p

/-- A word stored in a block changes only the inode that has the block. -/
theorem Sole.target_setWord_ne (h : Sole v ino (i, p) c) (hino : ino j)
    (hj : j ≠ i) (q : Place) :
    (v.setWord c w b).target j q = v.target j q :=
  View.target_of_word rfl rfl (fun _ hd w' => View.wordAt_setWord_ne hd w w' b)
    fun q _ heq => hj (congrArg Prod.fst (h j hino q heq))

/-- An inode is stored: only its own places change. -/
theorem put_setInode {q : Place} (hempty : v.target i q = 0)
    (hself : ∀ p, (v.setInode i din a).target i p
      = if p = q then b else v.target i p) :
    Put v (v.setInode i din a) ino (i, q) b := by
  refine ⟨hempty, fun j _ p => ?_⟩
  by_cases hj : j = i
  · subst hj
    rw [hself]
    exact if_congr (by simp) rfl rfl
  · rw [View.target_setInode_ne hj, if_neg fun h => hj (congrArg Prod.fst h)]

/-- A word is stored: so do those of the inode that has the block. -/
theorem put_setWord {q r : Place} (hsole : Sole v ino (i, r) c)
    (hempty : v.target i q = 0)
    (hself : ino i → ∀ p, (v.setWord c w b).target i p
      = if p = q then b else v.target i p) :
    Put v (v.setWord c w b) ino (i, q) b := by
  refine ⟨hempty, fun j hino p => ?_⟩
  by_cases hj : j = i
  · subst hj
    rw [hself hino]
    exact if_congr (by simp) rfl rfl
  · rw [hsole.target_setWord_ne hino hj, if_neg fun h => hj (congrArg Prod.fst h)]

/-- A direct block. -/
theorem put_direct (hn : n < sfsL0Nblks)
    (hdirect : din.direct = Function.update (v.din i).direct ⟨n, hn⟩ b)
    (hind : din.indirect = (v.din i).indirect)
    (hempty : v.target i (.data n) = 0) :
    Put v (v.setInode i din (v.dbIndirect i)) ino (i, .data n) b := by
  refine put_setInode hempty fun p => ?_
  cases p with
  | self => rw [if_neg (fun h => by cases h)]; rfl
  | indirect =>
      rw [if_neg (fun h => by cases h)]
      show ((v.setInode i din _).din i).indirect = (v.din i).indirect
      rw [View.setInode_din, hind]
  | dbIndirect =>
      rw [if_neg (fun h => by cases h)]
      exact View.setInode_dbIndirect
  | dbEntry a =>
      rw [if_neg (fun h => by cases h)]
      show (if _ then View.wordAt _ _ a else _) = if _ then _ else _
      rw [View.setInode_dbIndirect]
      rfl
  | data m =>
      by_cases hm : m = n
      · subst hm
        rw [if_pos rfl]
        show View.dataAt _ i m = b
        rw [View.dataAt_direct hn, View.setInode_din, hdirect,
          Function.update_self]
      · rw [if_neg (fun h => hm (by cases h; rfl))]
        show View.dataAt _ i m = v.dataAt i m
        unfold View.dataAt
        rw [View.setInode_din, View.setInode_dbIndirect, hdirect, hind]
        split
        case isFalse => rfl
        case isTrue hlt =>
            exact Function.update_of_ne (fun h => hm (congrArg Fin.val h)) ..

/-- A block that is clear comes as an indirect block. -/
theorem put_indirect (hblank : ∀ w, v.wordAt c w = 0)
    (hdirect : din.direct = (v.din i).direct) (hind : din.indirect = c)
    (hempty : v.target i .indirect = 0) :
    Put v (v.setInode i din (v.dbIndirect i)) ino (i, .indirect) c := by
  refine put_setInode hempty fun p => ?_
  have hempty' : (v.din i).indirect = 0 := hempty
  cases p with
  | self => rw [if_neg (fun h => by cases h)]; rfl
  | indirect =>
      rw [if_pos rfl]
      show ((v.setInode i din _).din i).indirect = c
      rw [View.setInode_din, hind]
  | dbIndirect =>
      rw [if_neg (fun h => by cases h)]
      exact View.setInode_dbIndirect
  | dbEntry a =>
      rw [if_neg (fun h => by cases h)]
      show (if _ then View.wordAt _ _ a else _) = if _ then _ else _
      rw [View.setInode_dbIndirect]
      rfl
  | data m =>
      rw [if_neg (fun h => by cases h)]
      show View.dataAt _ i m = v.dataAt i m
      unfold View.dataAt
      rw [View.setInode_din, View.setInode_dbIndirect, hdirect, hind]
      split
      case isTrue => rfl
      case isFalse =>
          split
          case isFalse => rfl
          case isTrue =>
              rw [hempty', View.wordAt_zero]
              exact hblank _

/-- One comes as a doubly indirect block. -/
theorem put_dbIndirect (hblank : ∀ w, v.wordAt c w = 0)
    (hempty : v.target i .dbIndirect = 0) :
    Put v (v.setInode i (v.din i) c) ino (i, .dbIndirect) c := by
  refine put_setInode hempty fun p => ?_
  have hempty' : v.dbIndirect i = 0 := hempty
  have hblank' : ∀ w, (v.setInode i (v.din i) c).wordAt c w = 0 := hblank
  cases p with
  | self => rw [if_neg (fun h => by cases h)]; rfl
  | indirect =>
      rw [if_neg (fun h => by cases h)]
      show ((v.setInode i _ _).din i).indirect = _
      rw [View.setInode_din]
      rfl
  | dbIndirect =>
      rw [if_pos rfl]
      exact View.setInode_dbIndirect
  | dbEntry a =>
      rw [if_neg (fun h => by cases h)]
      show (if _ then View.wordAt _ _ a else _) = if _ then _ else _
      rw [View.setInode_dbIndirect, hblank', hempty', View.wordAt_zero]
  | data m =>
      rw [if_neg (fun h => by cases h)]
      show View.dataAt _ i m = v.dataAt i m
      unfold View.dataAt
      rw [View.setInode_din, View.setInode_dbIndirect, hempty',
        View.wordAt_zero, View.wordAt_zero, hblank', View.wordAt_zero]
      rfl

/-- One comes behind a doubly indirect block. -/
theorem put_dbEntry (hblank : ∀ w, v.wordAt c w = 0)
    (hdb : v.dbIndirect i ≠ 0) (hne : c ≠ v.dbIndirect i)
    (hsole : Sole v ino (i, .dbIndirect) (v.dbIndirect i))
    (ha : a < sfsBlkNentry) (hempty : v.target i (.dbEntry a) = 0) :
    Put v (v.setWord (v.dbIndirect i) a c) ino (i, .dbEntry a) c := by
  refine put_setWord hsole hempty fun hino p => ?_
  rw [View.target_dbEntry ha] at hempty
  cases p with
  | self => rw [if_neg (fun h => by cases h)]; rfl
  | indirect => rw [if_neg (fun h => by cases h)]; rfl
  | dbIndirect => rw [if_neg (fun h => by cases h)]; rfl
  | dbEntry d =>
      by_cases hd : d < sfsBlkNentry
      · rw [View.target_dbEntry hd, View.target_dbEntry hd]
        show View.wordAt _ (v.dbIndirect i) d = _
        rw [View.wordAt_setWord hdb]
        apply if_congr _ rfl rfl
        simp
      · rw [if_neg (fun h => hd (by cases h; exact ha))]
        exact (if_neg hd).trans (if_neg hd).symm
  | data m =>
      have hind : (v.din i).indirect ≠ v.dbIndirect i := fun heq => by
        cases hsole i hino .indirect heq
      rw [if_neg (fun h => by cases h)]
      show View.dataAt _ i m = v.dataAt i m
      rcases Nat.lt_or_ge m sfsL1Nblks with hlt | hge
      · exact View.dataAt_setWord_below hind hlt
      · rcases Nat.lt_or_ge m sfsL2Nblks with hlt' | hge'
        · rw [View.dataAt_dbIndirect hge hlt', View.dataAt_dbIndirect hge hlt']
          show View.wordAt _ (View.wordAt _ (v.dbIndirect i) _) _ = _
          rw [View.wordAt_setWord hdb]
          split
          case isTrue hq =>
              rw [hq, hempty, View.wordAt_zero, View.wordAt_setWord_ne hne]
              exact hblank _
          case isFalse =>
              rw [View.wordAt_setWord_ne]
              intro heq
              rw [← View.target_dbEntry (View.entry_lt hge hlt')] at heq
              cases hsole i hino _ heq
        · rw [View.dataAt_past hge', View.dataAt_past hge']

/-- A block behind an indirect one. -/
theorem put_indirectData (hlo : sfsL0Nblks ≤ n) (hhi : n < sfsL1Nblks)
    (hind : (v.din i).indirect ≠ 0)
    (hsole : Sole v ino (i, .indirect) (v.din i).indirect)
    (hempty : v.target i (.data n) = 0) :
    Put v (v.setWord (v.din i).indirect (n - sfsL0Nblks) b) ino (i, .data n) b := by
  refine put_setWord hsole hempty fun hino p => ?_
  have hdb : v.dbIndirect i ≠ (v.din i).indirect := fun heq => by
    cases hsole i hino .dbIndirect heq
  cases p with
  | self => rw [if_neg (fun h => by cases h)]; rfl
  | indirect => rw [if_neg (fun h => by cases h)]; rfl
  | dbIndirect => rw [if_neg (fun h => by cases h)]; rfl
  | dbEntry d =>
      rw [if_neg (fun h => by cases h)]
      show (if _ then View.wordAt _ (v.dbIndirect i) d else _) = if _ then _ else _
      rw [View.wordAt_setWord_ne hdb]
  | data m =>
      show View.dataAt _ i m = if _ then b else v.dataAt i m
      rcases Nat.lt_or_ge m sfsL0Nblks with hlt | hge
      · rw [if_neg (fun h => by cases h; omega), View.dataAt_direct hlt,
          View.dataAt_direct hlt]
        rfl
      · rcases Nat.lt_or_ge m sfsL1Nblks with hlt | hge'
        · rw [View.dataAt_indirect hge hlt, View.dataAt_indirect hge hlt]
          show View.wordAt _ (v.din i).indirect _ = _
          rw [View.wordAt_setWord hind]
          apply if_congr _ rfl rfl
          rw [Place.data.injEq]
          omega
        · rw [if_neg (fun h => by cases h; omega)]
          rcases Nat.lt_or_ge m sfsL2Nblks with hlt | hge''
          · rw [View.dataAt_dbIndirect hge' hlt, View.dataAt_dbIndirect hge' hlt]
            show View.wordAt _ (View.wordAt _ (v.dbIndirect i) _) _ = _
            rw [View.wordAt_setWord_ne hdb, View.wordAt_setWord_ne]
            intro heq
            rw [← View.target_dbEntry (View.entry_lt hge' hlt)] at heq
            cases hsole i hino _ heq
          · rw [View.dataAt_past hge'', View.dataAt_past hge'']

/-- A block behind one of the doubly indirect block. -/
theorem put_dbIndirectData (hlo : sfsL1Nblks ≤ n) (hhi : n < sfsL2Nblks)
    (ha : (n - sfsL1Nblks) / sfsBlkNentry = a)
    (hc : v.target i (.dbEntry a) = c) (hne : c ≠ 0)
    (hsole : Sole v ino (i, .dbEntry a) c)
    (hempty : v.target i (.data n) = 0) :
    Put v (v.setWord c ((n - sfsL1Nblks) % sfsBlkNentry) b) ino
      (i, .data n) b := by
  refine put_setWord hsole hempty fun hino p => ?_
  have hind : (v.din i).indirect ≠ c := fun heq => by
    cases hsole i hino .indirect heq
  have hdb : v.dbIndirect i ≠ c := fun heq => by
    cases hsole i hino .dbIndirect heq
  cases p with
  | self => rw [if_neg (fun h => by cases h)]; rfl
  | indirect => rw [if_neg (fun h => by cases h)]; rfl
  | dbIndirect => rw [if_neg (fun h => by cases h)]; rfl
  | dbEntry d =>
      rw [if_neg (fun h => by cases h)]
      show (if _ then View.wordAt _ (v.dbIndirect i) d else _) = if _ then _ else _
      rw [View.wordAt_setWord_ne hdb]
  | data m =>
      show View.dataAt _ i m = if _ then b else v.dataAt i m
      rcases Nat.lt_or_ge m sfsL1Nblks with hlt | hge
      · rw [if_neg (fun h => by cases h; omega)]
        exact View.dataAt_setWord_below hind hlt
      · rcases Nat.lt_or_ge m sfsL2Nblks with hlt | hge'
        · have hentry := View.entry_lt hge hlt
          rw [View.dataAt_dbIndirect hge hlt, View.dataAt_dbIndirect hge hlt]
          show View.wordAt _ (View.wordAt _ (v.dbIndirect i) _) _ = _
          rw [View.wordAt_setWord_ne hdb, ← View.target_dbEntry hentry]
          by_cases hq : (m - sfsL1Nblks) / sfsBlkNentry = a
          · rw [hq, hc, View.wordAt_setWord hne]
            apply if_congr _ rfl rfl
            rw [Place.data.injEq]
            unfold sfsBlkNentry sfsBlksize at *
            omega
          · rw [if_neg (fun h => hq (by cases h; exact ha)),
              View.wordAt_setWord_ne]
            intro heq
            cases hsole i hino _ heq
            exact hq rfl
        · rw [if_neg (fun h => by cases h; omega), View.dataAt_past hge',
            View.dataAt_past hge']

end Ucore.Mksfs
