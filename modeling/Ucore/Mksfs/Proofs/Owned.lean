/-
Each block that is given out has one owner, a place of an inode.

A block that is stored goes to a place that held none, and changes no other
place (`Put`): not the places of other inodes, as a block of block numbers is
at one place only.
-/
import Ucore.Mksfs.Place

namespace Ucore.Mksfs

open Sfs

variable {v v' v'' : View} {ino ino' buf buf' : Nat → Prop} {held : Finset Nat}
  {lo hi b c i n : Nat} {x : Nat × Place}

-- ============================================================ owners

/-- The blocks from `lo` to `hi`, and that of the root, stand at one place each
or are in hand, and those of block numbers are the buffered ones. -/
structure Owned (v : View) (ino buf : Nat → Prop) (held : Finset Nat)
    (lo hi : Nat) : Prop where
  exact : Exact (v.Refers ino) held fun b => lo ≤ b ∧ b < hi ∨ b = sfsBlknRoot
  buf_iff : ∀ {c}, buf c ↔ ∃ x : Nat × Place, x.2.Meta ∧ v.Refers ino x c

/-- Block `b` comes to the place `x`, which held none. -/
structure Put (v v' : View) (ino : Nat → Prop) (x : Nat × Place) (b : Nat) :
    Prop where
  empty : v.target x.1 x.2 = 0
  target : ∀ i, ino i → ∀ p,
    v'.target i p = if (i, p) = x then b else v.target i p

namespace Put

theorem refers (h : Put v v' ino x b) (hx : ino x.1) (hb : b ≠ 0)
    (y : Nat × Place) (c : Nat) :
    v'.Refers ino y c ↔ v.Refers ino y c ∨ y = x ∧ c = b := by
  constructor
  · rintro ⟨hino, heq, hne⟩
    rw [h.target y.1 hino y.2] at heq
    split at heq
    case isTrue hy => exact Or.inr ⟨hy, heq.symm⟩
    case isFalse => exact Or.inl ⟨hino, heq, hne⟩
  · rintro (⟨hino, heq, hne⟩ | ⟨rfl, rfl⟩)
    · refine ⟨hino, ?_, hne⟩
      rw [h.target y.1 hino y.2, if_neg]
      · exact heq
      · rintro hy
        have hzero := h.empty
        rw [← show y = x from hy, heq] at hzero
        exact hne hzero
    · refine ⟨hx, ?_, hb⟩
      rw [h.target y.1 hx y.2, if_pos rfl]

end Put

namespace Owned

theorem alloc (h : Owned v ino buf held lo hi) (hlo : lo ≤ hi)
    (hroot : sfsBlknRoot < lo) : Owned v ino buf (insert hi held) lo (hi + 1) := by
  refine ⟨h.exact.take ?_ fun c => ?_, h.buf_iff⟩
  · omega
  · omega

theorem notMem (h : Owned v ino buf held lo hi) (hlo : lo ≤ hi)
    (hroot : sfsBlknRoot < lo) : hi ∉ held := by
  intro hin
  have hused := h.exact.used_iff.2 (Or.inr hin)
  omega

theorem held_range (h : Owned v ino buf held lo hi) (hb : b ∈ held) :
    lo ≤ b ∧ b < hi ∨ b = sfsBlknRoot :=
  h.exact.used_iff.2 (Or.inr hb)

/-- A block in hand comes to a place. -/
theorem put (h : Owned v ino buf (insert b held) lo hi) (hb : b ∉ held)
    (hne : b ≠ 0) (hx : ino x.1) (hput : Put v v' ino x b)
    (hbuf : ∀ c, buf' c ↔ buf c ∨ x.2.Meta ∧ c = b) :
    Owned v' ino buf' held lo hi := by
  have hrefers := hput.refers hx hne
  refine ⟨h.exact.install hb hrefers, fun {c} => ?_⟩
  rw [hbuf, h.buf_iff]
  constructor
  · rintro (⟨y, hmeta, hy⟩ | ⟨hmeta, hc⟩)
    · exact ⟨y, hmeta, (hrefers y c).2 (Or.inl hy)⟩
    · exact ⟨x, hmeta, (hrefers x c).2 (Or.inr ⟨rfl, hc⟩)⟩
  · rintro ⟨y, hmeta, hy⟩
    rcases (hrefers y c).1 hy with hy | ⟨rfl, hc⟩
    · exact Or.inl ⟨y, hmeta, hy⟩
    · exact Or.inr ⟨hmeta, hc⟩

/-- The same places hold the same blocks. -/
theorem congr (h : Owned v ino buf held lo hi)
    (htarget : ∀ i, ino i → ∀ p, v'.target i p = v.target i p)
    (hino : ∀ i, ino' i ↔ ino i) (hbuf : ∀ c, buf' c ↔ buf c) :
    Owned v' ino' buf' held lo hi := by
  have hrefers : ∀ x c, v'.Refers ino' x c ↔ v.Refers ino x c := by
    intro x c
    unfold View.Refers
    rw [hino]
    constructor
    · rintro ⟨hx, heq, hne⟩
      exact ⟨hx, (htarget _ hx _).symm.trans heq, hne⟩
    · rintro ⟨hx, heq, hne⟩
      exact ⟨hx, (htarget _ hx _).trans heq, hne⟩
  refine ⟨h.exact.congr hrefers fun _ => Iff.rfl, fun {c} => ?_⟩
  rw [hbuf, h.buf_iff]
  simp only [hrefers]

/-- An inode that has nothing yet is made of a block in hand. -/
theorem inode (h : Owned v ino buf (insert b held) lo hi) (hb : b ∉ held)
    (hne : b ≠ 0) (hnew : ∀ p, p ≠ .self → v'.target b p = 0)
    (hold : ∀ i, ino i → ∀ p, v'.target i p = v.target i p)
    (hino : ∀ i, ino' i ↔ ino i ∨ i = b) :
    Owned v' ino' buf held lo hi := by
  have hfresh : ¬ ino b := by
    intro hin
    exact h.exact.apart (x := (b, .self)) ⟨hin, rfl, hne⟩
      (Finset.mem_insert_self _ _)
  have hrefers : ∀ y c, v'.Refers ino' y c
      ↔ v.Refers ino y c ∨ y = (b, .self) ∧ c = b := by
    rintro ⟨i, p⟩ c
    unfold View.Refers
    rw [hino]
    constructor
    · rintro ⟨hin | rfl, heq, hc⟩
      · exact Or.inl ⟨hin, (hold _ hin _).symm.trans heq, hc⟩
      · by_cases hp : p = .self
        · rw [hp] at heq
          exact Or.inr ⟨by rw [hp], heq.symm⟩
        · rw [hnew p hp] at heq
          exact absurd heq.symm hc
    · rintro (⟨hin, heq, hc⟩ | ⟨heq, rfl⟩)
      · exact ⟨Or.inl hin, (hold _ hin _).trans heq, hc⟩
      · cases heq
        exact ⟨Or.inr rfl, rfl, hne⟩
  refine ⟨h.exact.install hb hrefers, fun {c} => ?_⟩
  rw [h.buf_iff]
  constructor
  · rintro ⟨y, hmeta, hy⟩
    exact ⟨y, hmeta, (hrefers y c).2 (Or.inl hy)⟩
  · rintro ⟨y, hmeta, hy⟩
    rcases (hrefers y c).1 hy with hy | ⟨rfl, -⟩
    · exact ⟨y, hmeta, hy⟩
    · exact absurd hmeta id

theorem inj (h : Owned v ino buf held lo hi) {i j : Nat} {p q : Place}
    (hi' : ino i) (hj : ino j) (hne : v.target i p ≠ 0)
    (heq : v.target i p = v.target j q) : i = j ∧ p = q := by
  have hpair := h.exact.inj (x := (i, p)) (y := (j, q)) ⟨hi', rfl, hne⟩
    ⟨hj, heq.symm, hne⟩
  exact Prod.mk.inj hpair

/-- A block in hand stands nowhere. -/
theorem target_ne (h : Owned v ino buf held lo hi) (hb : b ∈ held) (hi' : ino i)
    (p : Place) (hne : b ≠ 0) : v.target i p ≠ b := fun heq =>
  h.exact.apart (x := (i, p)) ⟨hi', heq, hne⟩ hb

end Owned

-- ============================================================ stores

namespace View

/-- The inode with other direct, indirect or doubly indirect blocks. -/
def setInode (v : View) (i : Nat) (din : DiskInode) (db : Nat) : View where
  din := Function.update v.din i din
  dbIndirect := Function.update v.dbIndirect i db
  word := v.word

/-- A word stored in a block. -/
def setWord (v : View) (c w b : Nat) : View where
  din := v.din
  dbIndirect := v.dbIndirect
  word := Function.update v.word c (Function.update (v.word c) w b)

/-- A block of zeros. -/
def clear (v : View) (c : Nat) : View where
  din := v.din
  dbIndirect := v.dbIndirect
  word := Function.update v.word c fun _ => 0

theorem wordAt_clear (hc : c ≠ b) (w : Nat) :
    (v.clear b).wordAt c w = v.wordAt c w := by
  unfold wordAt clear
  dsimp only
  rw [Function.update_of_ne hc]

theorem wordAt_clear_self (w : Nat) : (v.clear b).wordAt b w = 0 := by
  unfold wordAt clear
  dsimp only
  rw [Function.update_self]
  split
  case isTrue => rfl
  case isFalse => rfl

theorem target_dbEntry {v : View} {i a : Nat} (ha : a < sfsBlkNentry) :
    v.target i (.dbEntry a) = v.wordAt (v.dbIndirect i) a := if_pos ha

theorem wordAt_zero (w : Nat) : v.wordAt 0 w = 0 := if_pos rfl

theorem wordAt_setWord_ne (hc : c ≠ b) (w w' d : Nat) :
    (v.setWord b w d).wordAt c w' = v.wordAt c w' := by
  unfold wordAt setWord
  dsimp only
  rw [Function.update_of_ne hc]

theorem wordAt_setWord (hc : c ≠ 0) (w w' d : Nat) :
    (v.setWord c w d).wordAt c w' = if w' = w then d else v.wordAt c w' := by
  unfold wordAt setWord
  dsimp only
  rw [if_neg hc, Function.update_self, if_neg hc, Function.update_apply]

/-- Two views with the same inodes, which differ in one block, are the same for
an inode that does not have it for a block of block numbers. -/
theorem target_of_word {p : Place} (hdin : v'.din i = v.din i)
    (hdb : v'.dbIndirect i = v.dbIndirect i)
    (hword : ∀ d, d ≠ c → ∀ w, v'.wordAt d w = v.wordAt d w)
    (h : ∀ p, p.Meta → v.target i p ≠ c) :
    v'.target i p = v.target i p := by
  have hind : (v.din i).indirect ≠ c := h .indirect trivial
  have hdbne : v.dbIndirect i ≠ c := h .dbIndirect trivial
  cases p with
  | self => rfl
  | indirect =>
      show (v'.din i).indirect = (v.din i).indirect
      rw [hdin]
  | dbIndirect => exact hdb
  | dbEntry a =>
      show (if _ then _ else _) = if _ then _ else _
      rw [hdb, hword _ hdbne]
  | data n =>
      show v'.dataAt i n = v.dataAt i n
      unfold dataAt
      rw [hdin, hdb, hword _ hind, hword _ hdbne]
      split
      case isTrue => rfl
      case isFalse =>
          split
          case isTrue => rfl
          case isFalse =>
              split
              case isFalse => rfl
              case isTrue hlt =>
                  have hentry : (n - sfsL1Nblks) / sfsBlkNentry < sfsBlkNentry := by
                    apply Nat.div_lt_of_lt_mul
                    unfold sfsL2Nblks at hlt
                    omega
                  have hleaf := h (.dbEntry ((n - sfsL1Nblks) / sfsBlkNentry)) trivial
                  rw [target_dbEntry hentry] at hleaf
                  rw [hword _ hleaf]

end View

end Ucore.Mksfs
