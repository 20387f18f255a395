/-
The loops of a segment.

Both loops go page by page from the first address `lo` of a segment to an
end `last`: a round allocates the page at `la` and fills it up to its end or
to `last`. `Filled` says what is there after some rounds, relative to the
state the segment started from; `Cursor.At` where the cursors stand. The
partial page between the loops is the last page of the first loop, filled
further.
-/
import Ucore.Exec.Proofs.Pages

namespace Ucore.Exec

open Mm

variable {M : PmmManager} {roots : Finset Nat} {lost : Set Nat}
  {r perm lo last : Nat} {want : Nat → UInt8} {l₀ l l' : Load M}
  {c c' : Cursor} {image : Image}

-- ============================================================= words

theorem add64_eq {a b : Nat} (h : a + b < 2 ^ 64) : add64 a b = a + b :=
  Nat.mod_eq_of_lt h

theorem sub64_eq {a b : Nat} (hba : b ≤ a) (ha : a < 2 ^ 64) :
    sub64 a b = a - b := by
  unfold sub64
  omega

theorem add64_add64 (a b d : Nat) :
    add64 (add64 a b) d = add64 a (b + d) := by
  unfold add64
  omega

/-- The address a page starts at. -/
theorem rounddown_le (a : Nat) : rounddown a pgsize ≤ a :=
  Nat.sub_le _ _

theorem lt_rounddown_add (a : Nat) : a < rounddown a pgsize + pgsize := by
  unfold rounddown pgsize
  omega

theorem rounddown_mod (a : Nat) : rounddown a pgsize % pgsize = 0 := by
  unfold rounddown pgsize
  omega

/-- Rounding up a user address. -/
theorem roundup_user {a : Nat} (ha : a ≤ usertop) :
    a ≤ roundup a pgsize ∧ roundup a pgsize < a + pgsize
      ∧ roundup a pgsize % pgsize = 0 := by
  have htop : usertop = 2147483648 := rfl
  have hmod : (a + pgsize - 1) % 2 ^ 64 = a + pgsize - 1 := by
    apply Nat.mod_eq_of_lt
    unfold pgsize
    omega
  rw [roundup, hmod]
  unfold rounddown pgsize
  omega

-- ================================================ pages of a segment

/-- The pages from an address up to another. -/
def pagesFrom (first last : Nat) : List Nat :=
  (List.range ((last - first) / pgsize)).map fun k => first + k * pgsize

theorem pagesFrom_self (first : Nat) : pagesFrom first first = [] := by
  simp [pagesFrom]

/-- One page more. -/
theorem pagesFrom_add {first la : Nat} (hle : first ≤ la)
    (hfirst : first % pgsize = 0) (hla : la % pgsize = 0) :
    pagesFrom first (la + pgsize) = pagesFrom first la ++ [la] := by
  have hsucc : (la + pgsize - first) / pgsize = (la - first) / pgsize + 1 := by
    unfold pgsize
    omega
  have hlast : first + (la - first) / pgsize * pgsize = la := by
    unfold pgsize at *
    omega
  rw [pagesFrom, hsucc, List.range_succ, List.map_append, List.map_singleton,
    hlast]
  rfl

theorem mem_pagesFrom {first last a : Nat} (hfirst : first % pgsize = 0)
    (hlast : last % pgsize = 0) :
    a ∈ pagesFrom first last ↔ first ≤ a ∧ a < last ∧ a % pgsize = 0 := by
  unfold pagesFrom pgsize at *
  rw [List.mem_map]
  constructor
  · intro h
    obtain ⟨k, hk, rfl⟩ := h
    rw [List.mem_range] at hk
    omega
  · intro h
    refine ⟨(a - first) / 4096, ?_, by omega⟩
    rw [List.mem_range]
    omega

theorem pagesFrom_nodup (first last : Nat) :
    (pagesFrom first last).Nodup := by
  apply List.Nodup.map _ List.nodup_range
  intro a b h
  unfold pgsize at h
  dsimp only at h
  omega

-- ======================================================= the cursors

/-- Where the cursors stand at the head of a loop: at the start of the
segment, or after the pages filled so far. -/
def Cursor.At (c : Cursor) (lo last : Nat) : Prop :=
  lo ≤ last ∧ (c.start = lo ∧ c.la = rounddown lo pgsize
    ∨ c.start = min c.la last ∧ c.la < last + pgsize ∧ lo < c.la)

/-- The addresses of a segment that `start` has passed, and `la`'s page. -/
theorem Cursor.At.bounds (h : c.At lo last) :
    lo ≤ c.start ∧ c.start ≤ last ∧ rounddown lo pgsize ≤ c.la
      ∧ c.la < last + pgsize := by
  have h1 := rounddown_le lo
  have h2 := lt_rounddown_add lo
  obtain ⟨hle, hwhere⟩ := h
  rcases hwhere with ⟨hs, hl⟩ | ⟨hs, hl, hlt⟩
  · rw [hs, hl]
    omega
  · omega

/-- Inside a loop `start` is in the page at `la`. -/
theorem Cursor.At.inside (h : c.At lo last) (hlt : c.start < last) :
    c.la ≤ c.start ∧ c.start < c.la + pgsize := by
  have h1 := rounddown_le lo
  have h2 := lt_rounddown_add lo
  obtain ⟨-, hwhere⟩ := h
  rcases hwhere with ⟨hs, hl⟩ | ⟨hs, hl, -⟩
  · rw [hs, hl]
    exact ⟨h1, h2⟩
  · unfold pgsize
    omega

-- ========================================================= the state

/-- What the rounds so far have made of the state `l₀` at the start of the
segment: the pages from that of `lo` up to `la` are mapped, each in a page
that was free and nowhere else, and hold what is wanted from `lo` up to
`start`. Each took at most two page tables. -/
structure Filled (roots : Finset Nat) (lost : Set Nat) (r perm lo : Nat)
    (want : Nat → UInt8) (l₀ : Load M) (c : Cursor) (l : Load M) : Prop where
  mm : l.mm = l₀.mm
  aligned : c.la % pgsize = 0
  grows : Grows roots lost (SlotAt r (InRange (rounddown lo pgsize) c.la))
    l₀.machine l.machine
  addrs : l.placed.map Prod.fst
    = (pagesFrom (rounddown lo pgsize) c.la).reverse ++ l₀.placed.map Prod.fst
  placed : ∀ e ∈ l.placed, e ∈ l₀.placed
    ∨ (e.1 % pgsize = 0 ∧ rounddown lo pgsize ≤ e.1 ∧ e.1 < c.la
      ∧ e.2 ∈ l₀.machine.free
      ∧ pteAt roots l.machine (slotOf r e.1)
        = pteCreate e.2 (pteV ||| perm))
  page : rounddown lo pgsize < c.la → ∃ page, c.page = some page
    ∧ page ∈ l₀.machine.free
    ∧ leafAt roots l.machine (slotOf r (c.la - pgsize)) = some page
  alone : ∀ va page x, rounddown lo pgsize ≤ va → va < c.la →
    leafAt roots l.machine (slotOf r va) = some page →
    x ∈ slots roots → leafAt roots l.machine x = some page → x = slotOf r va
  bytes : ∀ va, lo ≤ va → va < c.start →
    ∃ page, leafAt roots l.machine (slotOf r va) = some page
      ∧ byteOf (l.machine.mem page) (va % pgsize) = (want va).toNat
  cost : pgsize * l₀.machine.free.card
    ≤ pgsize * l.machine.free.card + 3 * (c.la - rounddown lo pgsize)

/-- Before the first round. -/
theorem Filled.init (h : RefInv roots lost noHold l₀.machine)
    (hstart : c.start = lo) (hla : c.la = rounddown lo pgsize) :
    Filled roots lost r perm lo want l₀ c l₀ where
  mm := rfl
  aligned := by
    rw [hla]
    exact rounddown_mod lo
  grows := Grows.refl h
  addrs := by
    rw [hla, pagesFrom_self]
    rfl
  placed e he := Or.inl he
  page hlt := by
    rw [hla] at hlt
    exact absurd hlt (Nat.lt_irrefl _)
  alone va page x h1 h2 := by
    rw [hla] at h2
    omega
  bytes va h1 h2 := by
    rw [hstart] at h2
    omega
  cost := by omega

/-- An address of the segment that `la` has not reached is not mapped. -/
theorem Filled.unmapped (h : Filled roots lost r perm lo want l₀ c l)
    {va : Nat} (hva : va < usertop) (hle : c.la ≤ va)
    (hempty : leafAt roots l₀.machine (slotOf r va) = none) :
    leafAt roots l.machine (slotOf r va) = none := by
  rw [h.grows.leaf, hempty]
  intro hx
  obtain ⟨b, ⟨-, hb⟩, heq⟩ := hx
  apply slotOf_ne hva (by omega) _ heq
  have haligned := h.aligned
  unfold pgsize at *
  omega

-- =========================================================== a round

/-- Where a page could not be mapped the entries are as they were. -/
theorem Filled.null {s : Machine M}
    (h : Filled roots lost r perm lo want l₀ c l) (hle : c.la ≤ last)
    (hgrows : Grows roots lost (· = slotOf r c.la) l.machine s)
    (hsame : pteAt roots s (slotOf r c.la)
      = pteAt roots l.machine (slotOf r c.la)) :
    Grows roots lost (SlotAt r (InRange (rounddown lo pgsize) last))
      l₀.machine s := by
  have hwider : ∀ x, SlotAt r (InRange (rounddown lo pgsize) c.la) x →
      SlotAt r (InRange (rounddown lo pgsize) last) x := by
    intro x hx
    obtain ⟨va, ⟨h1, h2⟩, rfl⟩ := hx
    exact ⟨va, ⟨h1, by omega⟩, rfl⟩
  have hpte : ∀ x, pteAt roots s x = pteAt roots l.machine x := by
    intro x
    by_cases hx : x = slotOf r c.la
    · rw [hx, hsame]
    · exact hgrows.pte x hx
  exact (h.grows.weaken hwider).trans
    ⟨hgrows.inv, fun x _ => hpte x, hgrows.user, hgrows.free⟩

/-- A round: the page that was allocated at `la` is filled. -/
theorem Filled.round {s : Machine M} {page size src : Nat}
    {data : Nat → UInt8} (h : Filled roots lost r perm lo want l₀ c l)
    (hr : r ∈ roots) (hperm : perm < 2 ^ 10) (hlast : last ≤ usertop)
    (hat : c.At lo last) (hlt : c.start < last)
    (hgrows : Grows roots lost (· = slotOf r c.la) l.machine s)
    (hin : page ∈ l.machine.free)
    (hentry : pteAt roots s (slotOf r c.la) = pteCreate page (pteV ||| perm))
    (hcard : l.machine.free.card ≤ s.free.card + 3)
    (hsize : size = min (c.la + pgsize) last - c.start)
    (hdata : ∀ k, k < size → data k = want (c.start + k)) :
    Filled roots lost r perm lo want l₀
      { start := c.start + size, la := c.la + pgsize, src := src
        page := some page }
      { l with
        machine := storeBytes s page (c.start - c.la) data size
        placed := (c.la, page) :: l.placed } := by
  obtain ⟨hla, hstart⟩ := hat.inside hlt
  have hbounds := hat.bounds
  have hlaUser : c.la < usertop := by omega
  have hpd := pdx1_user hlaUser
  have hmem := slotOf_mem hr hpd
  have hlow : pteV ||| perm < 2 ^ 10 := Nat.or_lt_two_pow (by decide) hperm
  let s₁ := storeBytes s page (c.start - c.la) data size
  have hmanaged : Managed page := h.grows.inv.forest.freeManaged hin
  have hleaf : leafAt roots s (slotOf r c.la) = some page := by
    rw [leafAt, hentry, frameOf_pteCreate hmanaged.lt hlow]
  have hpage : UserPage roots lost s page := hgrows.inv.mapped hmem hleaf
  obtain ⟨hinv₁, hpte₁, -, hother₁, hbyte₁⟩ :=
    @storeBytes_spec _ _ _ _ _ (c.start - c.la) size data hgrows.inv hpage
  have hgrows₁ : Grows roots lost (· = slotOf r c.la) l.machine s₁ :=
    hgrows.store hin hpage
  have hnew : leafAt roots s₁ (slotOf r c.la) = some page := by
    rw [leafAt, hpte₁]
    exact hleaf
  have hold : ∀ x, x ≠ slotOf r c.la →
      leafAt roots s₁ x = leafAt roots l.machine x :=
    fun x hx => hgrows₁.leaf hx
  -- the pages mapped before are other pages at other slots
  have hslot : ∀ va, va < c.la → slotOf r va ≠ slotOf r c.la := by
    intro va hva
    have haligned := h.aligned
    apply slotOf_ne (by omega) hlaUser
    unfold pgsize at *
    omega
  have hother : ∀ x p, x ∈ slots roots → leafAt roots l.machine x = some p →
      p ≠ page := by
    intro x p hx hp heq
    exact (h.grows.inv.mapped hx hp).2.1 (heq ▸ hin)
  refine ⟨h.mm, ?_, ?_, ?_, ?_, ?_, ?_, ?_, ?_⟩
  · have haligned := h.aligned
    dsimp only
    unfold pgsize at *
    omega
  · -- what was there before the segment is as it was
    have hwider : ∀ x, SlotAt r (InRange (rounddown lo pgsize) c.la) x →
        SlotAt r (InRange (rounddown lo pgsize) (c.la + pgsize)) x := by
      intro x hx
      obtain ⟨va, ⟨h1, h2⟩, rfl⟩ := hx
      exact ⟨va, ⟨h1, by omega⟩, rfl⟩
    have hround : ∀ x, x = slotOf r c.la →
        SlotAt r (InRange (rounddown lo pgsize) (c.la + pgsize)) x := by
      intro x hx
      exact ⟨c.la, ⟨hbounds.2.2.1, by unfold pgsize; omega⟩, hx⟩
    exact (h.grows.weaken hwider).trans (hgrows₁.weaken hround)
  · dsimp only
    rw [pagesFrom_add hbounds.2.2.1 (rounddown_mod lo) h.aligned,
      List.map_cons, h.addrs, List.reverse_append, List.reverse_singleton]
    rfl
  · intro e he
    rcases List.mem_cons.mp he with rfl | he
    · refine Or.inr ⟨h.aligned, hbounds.2.2.1, by unfold pgsize; dsimp only; omega,
        h.grows.free hin, ?_⟩
      exact (hpte₁ _).trans hentry
    · rcases h.placed e he with hin₀ | ⟨h0, h1, h2, h3, h4⟩
      · exact Or.inl hin₀
      · refine Or.inr ⟨h0, h1, by dsimp only; omega, h3, ?_⟩
        exact (hgrows₁.pte _ (hslot _ h2)).trans h4
  · intro _
    refine ⟨page, rfl, h.grows.free hin, ?_⟩
    dsimp only
    rw [Nat.add_sub_cancel]
    exact hnew
  · intro va p x h1 h2 hva hx hxp
    dsimp only at h2 hva hxp
    by_cases hlt : va < c.la
    · rw [hold _ (hslot va hlt)] at hva
      have hp : p ≠ page :=
        hother _ p (slotOf_mem hr (pdx1_user (by omega))) hva
      by_cases hxla : x = slotOf r c.la
      · rw [hxla, hnew] at hxp
        cases hxp
        exact absurd rfl hp
      · rw [hold x hxla] at hxp
        exact h.alone va p x h1 hlt hva hx hxp
    · have hsame : slotOf r va = slotOf r c.la := by
        apply slotOf_eq
        have haligned := h.aligned
        unfold pgsize at *
        omega
      rw [hsame, hnew] at hva
      cases hva
      rw [hsame]
      by_contra hxla
      rw [hold x hxla] at hxp
      exact hother x page hx hxp rfl
  · intro va h1 h2
    dsimp only at h2
    by_cases hva : va < c.start
    · -- a byte of an earlier page
      obtain ⟨p, hp, hbyte⟩ := h.bytes va h1 hva
      have hearlier : va < c.la := by
        obtain ⟨-, hwhere⟩ := hat
        rcases hwhere with ⟨hs, -⟩ | ⟨hs, -, -⟩ <;> omega
      have hpd' : pdx1 va < 511 := pdx1_user (by omega)
      have hmem' := slotOf_mem hr hpd'
      refine ⟨p, ?_, ?_⟩
      · dsimp only
        rw [hold _ (hslot va hearlier)]
        exact hp
      · have hkeep : s₁.mem p = l.machine.mem p :=
          (hgrows₁.user p (h.grows.inv.mapped hmem' hp)).2
        dsimp only
        rw [hkeep]
        exact hbyte
    · have hsame : slotOf r va = slotOf r c.la := by
        apply slotOf_eq
        have haligned := h.aligned
        unfold pgsize at *
        omega
      refine ⟨page, ?_, ?_⟩
      · dsimp only
        rw [hsame]
        exact hnew
      · have hoff : va % pgsize = c.start - c.la + (va - c.start) := by
          have haligned := h.aligned
          unfold pgsize at *
          omega
        have hin' : va - c.start < size := by omega
        have hwant := hdata (va - c.start) hin'
        rw [Nat.add_sub_cancel' (Nat.le_of_not_lt hva)] at hwant
        dsimp only
        rw [hbyte₁, hoff, if_pos (by omega), Nat.add_sub_cancel_left, hwant]
  · have hcost := h.cost
    have hfree₁ : s₁.free.card = s.free.card := rfl
    dsimp only
    rw [hfree₁]
    unfold pgsize at *
    omega

-- ========================================================= the loops

/-- What a loop is told to do with a piece of a page: the bytes wanted at
the addresses from `start` on are stored. `Src` says where `from` stands. -/
def Fills (fill : Machine M → (page off src size : Nat) →
    Except Fault (Machine M)) (want : Nat → UInt8) (lo last : Nat)
    (Src : Nat → Nat → Prop) : Prop :=
  ∀ s page start off src size, lo ≤ start → start + size ≤ last → 0 < size →
    off + size ≤ pgsize → Src start src →
    (∃ data, fill s page off src size = .ok (storeBytes s page off data size)
      ∧ ∀ k, k < size → data k = want (start + k))
    ∧ Src (start + size) (add64 src size)

/-- The words of a round, as numbers. -/
theorem round_words {start la : Nat} (hla : la ≤ start)
    (hstart : start < la + pgsize) (hlt : start < last)
    (hlast : last ≤ usertop) :
    add64 la pgsize = la + pgsize ∧ sub64 start la = start - la
      ∧ (if last < la + pgsize then
          sub64 (sub64 pgsize (start - la)) (sub64 (la + pgsize) last)
        else sub64 pgsize (start - la)) = min (la + pgsize) last - start := by
  have htop : usertop = 2147483648 := rfl
  have hpg : pgsize = 4096 := rfl
  have h1 : sub64 pgsize (start - la) = pgsize - (start - la) :=
    sub64_eq (by omega) (by omega)
  refine ⟨add64_eq (by omega), sub64_eq hla (by omega), ?_⟩
  rw [h1]
  split
  case isTrue h =>
      rw [sub64_eq (Nat.le_of_lt h) (by omega), sub64_eq (by omega) (by omega)]
      omega
  case isFalse h => omega

section Loops

variable {fill : Machine M → (page off src size : Nat) →
    Except Fault (Machine M)} {Src : Nat → Nat → Prop}

/-- The cursors after a round. -/
theorem Cursor.At.next {page : Option Nat} {src : Nat} (h : c.At lo last)
    (hlt : c.start < last) :
    (Cursor.mk (c.start + (min (c.la + pgsize) last - c.start))
      (c.la + pgsize) src page).At lo last := by
  obtain ⟨h1, h2⟩ := h.inside hlt
  obtain ⟨h3, h4, -, -⟩ := h.bounds
  refine ⟨h3.trans h4, Or.inr ⟨?_, ?_, ?_⟩⟩ <;>
    · dsimp only
      omega

/-- A loop that goes on to `last` fills all pages, or there was no page left
for one of them. -/
theorem fillPages_spec (hr : r ∈ roots) (hperm : perm < 2 ^ 10)
    (hlast : last ≤ usertop) (hfill : Fills fill want lo last Src)
    (hroot : l₀.mm.pgdir = r)
    (hempty : ∀ va, rounddown lo pgsize ≤ va → va < last →
      leafAt roots l₀.machine (slotOf r va) = none) :
    ∀ {fuel : Nat} {c : Cursor} {l : Load M},
      Filled roots lost r perm lo want l₀ c l → c.At lo last →
      Src c.start c.src → l.machine.free.card < fuel →
      ∃ ok c' l', fillPages fill perm last fuel c l = .ok (ok, c', l')
        ∧ (ok = true → Filled roots lost r perm lo want l₀ c' l'
          ∧ c'.At lo last ∧ c'.start = last ∧ Src c'.start c'.src)
        ∧ (ok = false → l'.mm = l₀.mm
          ∧ Grows roots lost (SlotAt r (InRange (rounddown lo pgsize) last))
            l₀.machine l'.machine
          ∧ pgsize * l₀.machine.free.card
            < 3 * (roundup last pgsize - rounddown lo pgsize)) := by
  intro fuel
  induction fuel with
  | zero =>
      intro c l _ _ _ hfuel
      exact absurd hfuel (Nat.not_lt_zero _)
  | succ fuel ih =>
      intro c l h hat hsrc hfuel
      have hbounds := hat.bounds
      by_cases hlt : c.start < last
      case neg =>
        exact ⟨true, c, l, if_neg hlt,
          fun _ => ⟨h, hat, by omega, hsrc⟩, fun h => by cases h⟩
      obtain ⟨hla, hstart⟩ := hat.inside hlt
      obtain ⟨hnext, hoff, hsize⟩ := round_words hla hstart hlt hlast
      have hpd : pdx1 c.la < 511 := pdx1_user (by omega)
      have hlaUser : c.la < usertop := by omega
      have hunmapped := h.unmapped hlaUser (Nat.le_refl _)
        (hempty c.la hbounds.2.2.1 (by omega))
      obtain ⟨o, s, hcall, hgrows, hok, hnull⟩ :=
        pgdirAllocPage_spec h.grows.inv hr hpd hperm hunmapped
      have hpgdir : l.mm.pgdir = r := by
        rw [h.mm, hroot]
      unfold fillPages
      rw [if_pos hlt, hpgdir, hcall]
      cases o with
      | none =>
          obtain ⟨hsame, hcard⟩ := hnull rfl
          refine ⟨false, c, { l with machine := s }, rfl, (fun h => by cases h),
            fun _ => ⟨h.mm, ?_, ?_⟩⟩
          · exact h.null (by omega) hgrows hsame
          · have hcost : 4096 * l₀.machine.free.card
                ≤ 4096 * l.machine.free.card
                  + 3 * (c.la - rounddown lo pgsize) := h.cost
            have hup := roundup_user hlast
            have hle : c.la + 4096 ≤ roundup last pgsize := by
              have haligned := h.aligned
              unfold pgsize at *
              omega
            show 4096 * _ < 3 * _
            omega
      | some page =>
          obtain ⟨hin, hentry, hcard⟩ := hok page rfl
          obtain ⟨size, hsz⟩ : ∃ size,
              size = min (c.la + pgsize) last - c.start := ⟨_, rfl⟩
          rw [← hsz] at hsize
          obtain ⟨⟨data, hstore, hdata⟩, hsrc'⟩ :=
            hfill s page c.start (c.start - c.la) c.src size hbounds.1
              (by omega) (by omega) (by omega) hsrc
          have hstart' : add64 c.start size = c.start + size :=
            add64_eq (by unfold usertop at hlast; omega)
          dsimp only
          rw [hnext, hoff, hsize, hstore, hstart']
          have hround := @Filled.round _ _ _ _ _ _ _ _ _ _ _ _ _ _
            (add64 c.src size) _ h hr hperm hlast hat hlt hgrows hin hentry
            hcard hsz hdata
          have hat' := @Cursor.At.next _ _ _ (some page) (add64 c.src size) hat
            hlt
          rw [← hsz] at hat'
          apply ih hround hat' hsrc'
          -- the page that was free no longer is
          have hused : page ∉ s.free := by
            have hlow : pteV ||| perm < 2 ^ 10 :=
              Nat.or_lt_two_pow (by decide) hperm
            have hmanaged : Managed page :=
              h.grows.inv.forest.freeManaged hin
            refine (hgrows.inv.mapped (slotOf_mem hr hpd) (p := page) ?_).2.1
            rw [leafAt, hentry, frameOf_pteCreate hmanaged.lt hlow]
          have hless : s.free.card < l.machine.free.card := by
            apply Finset.card_lt_card
            rw [Finset.ssubset_iff_of_subset hgrows.free]
            exact ⟨page, hin, hused⟩
          have hfree : (storeBytes s page (c.start - c.la) data size).free
              = s.free := rfl
          dsimp only
          rw [hfree]
          omega

end Loops

-- ========================================================== the rest

/-- The words of the partial page, as numbers. -/
theorem rest_words {start la : Nat} (hlt : start < la)
    (hla : la < start + pgsize) (hle : start ≤ last) (hlast : last ≤ usertop) :
    sub64 (add64 start pgsize) la = start + pgsize - la
      ∧ (if last < la then
          sub64 (sub64 pgsize (start + pgsize - la)) (sub64 la last)
        else sub64 pgsize (start + pgsize - la)) = min la last - start := by
  have htop : usertop = 2147483648 := rfl
  have hpg : pgsize = 4096 := rfl
  have h1 : sub64 pgsize (start + pgsize - la)
      = pgsize - (start + pgsize - la) := sub64_eq (by omega) (by omega)
  refine ⟨?_, ?_⟩
  · rw [add64_eq (by omega), sub64_eq (by omega) (by omega)]
  · rw [h1]
    split
    case isTrue h =>
        rw [sub64_eq (Nat.le_of_lt h) (by omega),
          sub64_eq (by omega) (by omega)]
        omega
    case isFalse h => omega

/-- The page that was filled last is filled further. -/
theorem Filled.rest {page size : Nat} {data : Nat → UInt8}
    (h : Filled roots lost r perm lo want l₀ c l) (hr : r ∈ roots)
    (hlo : lo ≤ c.start) (hlt : c.start < c.la)
    (hla : c.la < c.start + pgsize) (htop : c.start ≤ usertop)
    (hpage : c.page = some page) (hin : page ∈ l₀.machine.free)
    (hleaf : leafAt roots l.machine (slotOf r (c.la - pgsize)) = some page)
    (hsize : c.start + size ≤ c.la)
    (hdata : ∀ k, k < size → data k = want (c.start + k)) :
    Filled roots lost r perm lo want l₀ { c with start := c.start + size }
      { l with machine :=
        storeBytes l.machine page (c.start + pgsize - c.la) data size } := by
  have hfirst := rounddown_le lo
  have htopv : usertop = 2147483648 := rfl
  -- the page the bytes go to
  obtain ⟨base, hbase⟩ : ∃ base, c.la - pgsize = base := ⟨_, rfl⟩
  rw [hbase] at hleaf
  have hbaseLa : c.la = base + 4096 ∧ base % 4096 = 0 := by
    have haligned : c.la % 4096 = 0 := h.aligned
    have hsub : c.la - 4096 = base := hbase
    omega
  have hoff : c.start + pgsize - c.la = c.start - base := by
    have hpg : pgsize = 4096 := rfl
    omega
  have hlaStart : c.la < c.start + 4096 := hla
  have hpd : pdx1 base < 511 := pdx1_user (by omega)
  rw [hoff]
  have huser : UserPage roots lost l.machine page :=
    h.grows.inv.mapped (slotOf_mem hr hpd) hleaf
  let s₁ := storeBytes l.machine page (c.start - base) data size
  obtain ⟨-, hpte₁, -, hother₁, hbyte₁⟩ :=
    @storeBytes_spec _ _ _ _ _ (c.start - base) size data h.grows.inv huser
  have hleaf₁ : ∀ x, leafAt roots s₁ x = leafAt roots l.machine x := by
    intro x
    rw [leafAt, leafAt, hpte₁]
  refine ⟨h.mm, h.aligned, h.grows.store hin huser, h.addrs, ?_, ?_, ?_, ?_,
    h.cost⟩
  · intro e he
    rcases h.placed e he with hin₀ | ⟨h0, h1, h2, h3, h4⟩
    · exact Or.inl hin₀
    · exact Or.inr ⟨h0, h1, h2, h3, (hpte₁ _).trans h4⟩
  · intro hlt
    obtain ⟨page, h1, h2, h3⟩ := h.page hlt
    exact ⟨page, h1, h2, (hleaf₁ _).trans h3⟩
  · intro va p x h1 h2 h3 hx h4
    dsimp only at h3 h4
    rw [hleaf₁] at h3 h4
    exact h.alone va p x h1 h2 h3 hx h4
  · intro va h1 h2
    dsimp only at h2
    by_cases hva : va < c.start
    · obtain ⟨p, hp, hbyte⟩ := h.bytes va h1 hva
      refine ⟨p, (hleaf₁ _).trans hp, ?_⟩
      dsimp only
      by_cases heq : p = page
      · -- in the same page, and below what is stored
        subst heq
        have hsame := h.alone va p _ (hfirst.trans h1) (by omega) hp
          (slotOf_mem hr hpd) hleaf
        have hpages : base / 4096 = va / 4096 := by
          by_contra hne
          exact slotOf_ne (by omega) (by omega) hne hsame
        have hbelow : ¬ (c.start - base ≤ va % pgsize
            ∧ va % pgsize < c.start - base + size) := by
          show ¬ (c.start - base ≤ va % 4096 ∧ va % 4096 < _)
          omega
        rw [hbyte₁, if_neg hbelow]
        exact hbyte
      · rw [hother₁ p heq]
        exact hbyte
    · have hsame : slotOf r va = slotOf r base := by
        apply slotOf_eq
        show va / 4096 = base / 4096
        omega
      refine ⟨page, ?_, ?_⟩
      · dsimp only
        rw [hleaf₁, hsame]
        exact hleaf
      · have hoff' : va % pgsize = c.start - base + (va - c.start) := by
          show va % 4096 = _
          omega
        have hk : va - c.start < size := by omega
        have hwant := hdata (va - c.start) hk
        rw [Nat.add_sub_cancel' (Nat.le_of_not_lt hva)] at hwant
        dsimp only
        rw [hbyte₁, hoff', if_pos (by omega), Nat.add_sub_cancel_left, hwant]

/-- The partial page: the assertion holds. -/
theorem zeroRest_spec {mid : Nat}
    (h : Filled roots lost r perm lo want l₀ c l) (hr : r ∈ roots)
    (hat : c.At lo mid) (hstart : c.start = mid) (hmid : mid ≤ last)
    (hlast : last ≤ usertop) (hlt : c.start < c.la)
    (hwant : ∀ va, mid ≤ va → va < last → want va = 0) :
    ∃ l', zeroRest last c l = .ok ({ c with start := min c.la last }, l')
      ∧ Filled roots lost r perm lo want l₀
        { c with start := min c.la last } l'
      ∧ ({ c with start := min c.la last } : Cursor).At lo last := by
  obtain ⟨h1, -, h3, h4⟩ := hat.bounds
  have hfirst := rounddown_le lo
  obtain ⟨page, hpage, hin, hleaf⟩ := h.page (by omega)
  obtain ⟨hoff, hsize⟩ :=
    rest_words hlt (by omega) (hstart.trans_le hmid) hlast
  have htop : usertop = 2147483648 := rfl
  have hpg : pgsize = 4096 := rfl
  have hadd : c.start + (min c.la last - c.start) = min c.la last := by omega
  have hzeros : ∀ k, k < min c.la last - c.start →
      (fun _ => 0 : Nat → UInt8) k = want (c.start + k) := by
    intro k hk
    exact (hwant _ (by omega) (by omega)).symm
  have hfilled := h.rest hr h1 hlt (by omega) (by omega) hpage hin hleaf
    (by omega) hzeros
  rw [hadd] at hfilled
  refine ⟨_, ?_, hfilled, ?_⟩
  · unfold zeroRest
    dsimp only
    rw [hoff, hsize, hpage]
    dsimp only
    unfold clear
    rw [if_neg (by omega)]
    dsimp only
    rw [add64_eq (by omega), hadd, if_pos (by omega)]
  · refine ⟨by omega, Or.inr ⟨rfl, ?_, ?_⟩⟩
    · dsimp only
      omega
    · dsimp only
      omega

-- ========================================================= a segment

/-- The first page of a segment. -/
def Proghdr.first (ph : Proghdr) : Nat := rounddown ph.pVa pgsize

/-- The end of the last page of a segment. -/
def Proghdr.pastLast (ph : Proghdr) : Nat :=
  roundup (ph.pVa + ph.pMemsz) pgsize

/-- The bytes of a segment in memory, by address. -/
def Image.content (image : Image) (ph : Proghdr) (va : Nat) : UInt8 :=
  if va < ph.pVa + ph.pFilesz then
    image.byteAt (image.binary + ph.pOffset + (va - ph.pVa))
  else 0

/-- A segment that is not empty, lies in user space, and has its bytes in
the file. -/
structure Image.Loadable (image : Image) (ph : Proghdr) : Prop where
  sizes : ph.pFilesz ≤ ph.pMemsz
  pos : 0 < ph.pMemsz
  file : ph.pOffset + ph.pFilesz ≤ image.size
  user : userAccess ph.first ph.pastLast
  fits : ph.pVa + ph.pMemsz ≤ usertop

theorem free_card_lt (h : RefInv roots lost noHold l.machine) :
    l.machine.free.card < rounds := by
  have hsub : l.machine.free ⊆ Finset.Ico nbase npage := by
    intro p hp
    rw [Finset.mem_Ico]
    exact h.forest.freeManaged hp
  have hcard := Finset.card_le_card hsub
  rw [Nat.card_Ico] at hcard
  unfold rounds
  omega

/-- `memcpy` of a piece of the file part. -/
theorem fills_copyIn {ph : Proghdr} (hbase : image.binary + image.size ≤ 2 ^ 64)
    (h : image.Loadable ph) :
    Fills (M := M) (copyIn image) (image.content ph) ph.pVa
      (ph.pVa + ph.pFilesz) fun start src =>
        src = add64 (add64 image.binary ph.pOffset) (start - ph.pVa) := by
  intro s page start off src size hlo hlast hpos hoff hsrc
  have hfile := h.file
  have haddr : src = image.binary + ph.pOffset + (start - ph.pVa) := by
    rw [hsrc, add64_add64, add64_eq (by omega)]
    omega
  refine ⟨⟨fun k => image.byteAt (src + k), ?_, ?_⟩, ?_⟩
  · have hinside : image.Inside src size := Or.inr (by omega)
    unfold copyIn
    rw [if_neg (not_not.mpr hinside), if_neg (by omega)]
  · intro k hk
    have hbyte : src + k
        = image.binary + ph.pOffset + (start + k - ph.pVa) := by
      omega
    dsimp only
    rw [Image.content, if_pos (by omega), hbyte]
  · rw [hsrc, add64_add64]
    congr 1
    omega

/-- `memset` of a piece of the part after it. -/
theorem fills_clear {mid : Nat}
    (hwant : ∀ va, mid ≤ va → va < last → want va = 0) :
    Fills (M := M) (fun s page off _ size => clear s page off size) want lo
      last fun start _ => mid ≤ start := by
  intro s page start off src size _ hlast hpos hoff hmid
  refine ⟨⟨fun _ => 0, ?_, ?_⟩, by omega⟩
  · exact if_neg (Nat.not_lt.mpr hoff)
  · intro k hk
    exact (hwant _ (by omega) (by omega)).symm

/-- What a segment leaves when all its pages were allocated. -/
def SegmentDone (roots : Finset Nat) (lost : Set Nat) (r : Nat)
    (image : Image) (ph : Proghdr) (l l' : Load M) : Prop :=
  ∃ c, Filled roots lost r (Exec.perm (vmFlags ph.pFlags)) ph.pVa (image.content ph)
      l c l'
    ∧ c.start = ph.pVa + ph.pMemsz ∧ c.la = ph.pastLast

/-- What it leaves when there was no page for one of them. -/
def SegmentNull (roots : Finset Nat) (lost : Set Nat) (r : Nat)
    (ph : Proghdr) (l l' : Load M) : Prop :=
  l'.mm = l.mm
    ∧ Grows roots lost (SlotAt r (InRange ph.first ph.pastLast)) l.machine
      l'.machine
    ∧ pgsize * l.machine.free.card < 3 * (ph.pastLast - ph.first)

theorem perm_lt (flags : Nat) : Exec.perm flags < 2 ^ 10 := by
  unfold Exec.perm
  refine Nat.or_lt_two_pow (Nat.or_lt_two_pow (Nat.or_lt_two_pow ?_ ?_) ?_) ?_
  · decide
  · split <;> decide
  · split <;> decide
  · split <;> decide

/-- The cursors at the end of a segment. -/
theorem Cursor.At.done (h : c.At lo last) (hstart : c.start = last)
    (hlt : lo < last) (hlast : last ≤ usertop) (haligned : c.la % pgsize = 0) :
    c.la = roundup last pgsize := by
  obtain ⟨h1, h2, h3⟩ := roundup_user hlast
  obtain ⟨-, hwhere⟩ := h
  rcases hwhere with ⟨hs, -⟩ | ⟨hs, hla, -⟩
  · omega
  · unfold pgsize at *
    omega

/-- The second loop. -/
theorem zeroPages_spec {mid : Nat} (hr : r ∈ roots) (hperm : perm < 2 ^ 10)
    (hlast : last ≤ usertop) (hlt : lo < last) (hroot : l₀.mm.pgdir = r)
    (hempty : ∀ va, rounddown lo pgsize ≤ va → va < last →
      leafAt roots l₀.machine (slotOf r va) = none)
    (hwant : ∀ va, mid ≤ va → va < last → want va = 0)
    (h : Filled roots lost r perm lo want l₀ c l) (hat : c.At lo last)
    (hmid : mid ≤ c.start) :
    ∃ ok c' l', zeroPages perm last c l = .ok (ok, c', l')
      ∧ (ok = true → Filled roots lost r perm lo want l₀ c' l'
        ∧ c'.start = last ∧ c'.la = roundup last pgsize)
      ∧ (ok = false → l'.mm = l₀.mm
        ∧ Grows roots lost (SlotAt r (InRange (rounddown lo pgsize) last))
          l₀.machine l'.machine
        ∧ pgsize * l₀.machine.free.card
          < 3 * (roundup last pgsize - rounddown lo pgsize)) := by
  obtain ⟨ok, c', l', hrun, hok, hnull⟩ :=
    fillPages_spec hr hperm hlast (fills_clear hwant) hroot hempty h hat hmid
      (free_card_lt h.grows.inv)
  refine ⟨ok, c', l', hrun, ?_, ?_⟩
  · intro htrue
    obtain ⟨h', hat', hstart', -⟩ := hok htrue
    exact ⟨h', hstart', hat'.done hstart' hlt hlast h'.aligned⟩
  · intro hfalse
    exact hnull hfalse

/-- Cursors that are not inside a page serve the next loop. -/
theorem Cursor.At.widen {mid : Nat} (h : c.At lo mid) (hle : c.la ≤ c.start)
    (hmid : mid ≤ last) : c.At lo last := by
  obtain ⟨hlo, hwhere⟩ := h
  refine ⟨hlo.trans hmid, ?_⟩
  rcases hwhere with hinit | ⟨hs, hla, hlt⟩
  · exact Or.inl hinit
  · exact Or.inr (by omega)

theorem roundup_mono {a b : Nat} (hab : a ≤ b) (hb : b ≤ usertop) :
    roundup a pgsize ≤ roundup b pgsize := by
  obtain ⟨ha1, ha2, ha3⟩ := roundup_user (hab.trans hb)
  obtain ⟨hb1, hb2, hb3⟩ := roundup_user hb
  unfold pgsize at *
  omega

theorem SegmentNull.mk' {ph : Proghdr} {mid : Nat} (hmm : l'.mm = l.mm)
    (hmid : mid ≤ ph.pVa + ph.pMemsz) (hfits : ph.pVa + ph.pMemsz ≤ usertop)
    (hgrows : Grows roots lost
      (SlotAt r (InRange (rounddown ph.pVa pgsize) mid)) l.machine l'.machine)
    (hcost : pgsize * l.machine.free.card
      < 3 * (roundup mid pgsize - rounddown ph.pVa pgsize)) :
    SegmentNull roots lost r ph l l' := by
  have hup := roundup_mono hmid hfits
  obtain ⟨h1, -, -⟩ := roundup_user hfits
  refine ⟨hmm, hgrows.weaken ?_, ?_⟩
  · intro x hx
    obtain ⟨va, ⟨h2, h3⟩, rfl⟩ := hx
    exact ⟨va, ⟨h2, by unfold Proghdr.pastLast; omega⟩, rfl⟩
  · unfold Proghdr.first Proghdr.pastLast
    omega

/-- A segment is loaded, unless there is no page left for it. The assertion
about the cursors holds. -/
theorem loadSegment_spec {ph : Proghdr} (hr : r ∈ roots)
    (h : RefInv roots lost noHold l.machine)
    (hbase : image.binary + image.size ≤ 2 ^ 64) (hload : image.Loadable ph)
    (hroot : l.mm.pgdir = r)
    (hempty : ∀ va, ph.first ≤ va → va < ph.pastLast →
      leafAt roots l.machine (slotOf r va) = none) :
    ∃ ok l', loadSegment image ph l = .ok (ok, l')
      ∧ (ok = true → SegmentDone roots lost r image ph l l')
      ∧ (ok = false → SegmentNull roots lost r ph l l') := by
  have hsizes := hload.sizes
  have hpos := hload.pos
  have hfits := hload.fits
  have htop : usertop = 2147483648 := rfl
  have hperm := perm_lt (vmFlags ph.pFlags)
  have hend1 : add64 ph.pVa ph.pFilesz = ph.pVa + ph.pFilesz :=
    add64_eq (by omega)
  have hend2 : add64 ph.pVa ph.pMemsz = ph.pVa + ph.pMemsz :=
    add64_eq (by omega)
  obtain ⟨hup, -, -⟩ := roundup_user hfits
  have hempty' : ∀ va, rounddown ph.pVa pgsize ≤ va →
      va < ph.pVa + ph.pMemsz → leafAt roots l.machine (slotOf r va) = none :=
    fun va h1 h2 => hempty va h1 (Nat.lt_of_lt_of_le h2 hup)
  have hwant : ∀ va, ph.pVa + ph.pFilesz ≤ va → va < ph.pVa + ph.pMemsz →
      image.content ph va = 0 := by
    intro va h1 _
    exact if_neg (Nat.not_lt.mpr h1)
  obtain ⟨c₀, hc₀⟩ : ∃ c₀ : Cursor, c₀ =
      { start := ph.pVa, la := rounddown ph.pVa pgsize
        src := add64 image.binary ph.pOffset, page := none } := ⟨_, rfl⟩
  have hstart₀ : c₀.start = ph.pVa := by rw [hc₀]
  have hla₀ : c₀.la = rounddown ph.pVa pgsize := by rw [hc₀]
  have hat₀ : c₀.At ph.pVa (ph.pVa + ph.pFilesz) :=
    ⟨Nat.le_add_right _ _, Or.inl ⟨hstart₀, hla₀⟩⟩
  have hsrc₀ : c₀.src
      = add64 (add64 image.binary ph.pOffset) (c₀.start - ph.pVa) := by
    rw [hstart₀, Nat.sub_self, add64_add64, hc₀, Nat.add_zero]
  have hinit : Filled roots lost r (Exec.perm (vmFlags ph.pFlags)) ph.pVa
      (image.content ph) l c₀ l := Filled.init h hstart₀ hla₀
  obtain ⟨ok, c, l₁, hrun, hok, hnull⟩ :=
    fillPages_spec hr hperm (by omega) (fills_copyIn hbase hload) hroot
      (fun va h1 h2 => hempty' va h1 (by omega)) hinit hat₀ hsrc₀
      (free_card_lt h)
  have hfile : filePages image (Exec.perm (vmFlags ph.pFlags))
      (ph.pVa + ph.pFilesz) c₀ l = .ok (ok, c, l₁) := hrun
  unfold loadSegment
  dsimp only
  rw [hend1, hend2, ← hc₀, hfile]
  cases ok with
  | false =>
      obtain ⟨hmm, hgrows, hcost⟩ := hnull rfl
      exact ⟨false, l₁, rfl, (fun h => by cases h), fun _ =>
        SegmentNull.mk' hmm (by omega) hfits hgrows hcost⟩
  | true =>
      obtain ⟨hfilled, hat, hstart, -⟩ := hok rfl
      -- the second loop, from cursors that serve it
      have hzero : ∀ {c : Cursor} {l₂ : Load M},
          Filled roots lost r (Exec.perm (vmFlags ph.pFlags)) ph.pVa
            (image.content ph) l c l₂ →
          c.At ph.pVa (ph.pVa + ph.pMemsz) → ph.pVa + ph.pFilesz ≤ c.start →
          ∃ ok l', (zeroPages (Exec.perm (vmFlags ph.pFlags))
              (ph.pVa + ph.pMemsz) c l₂).map (fun r => (r.1, r.2.2))
              = .ok (ok, l')
            ∧ (ok = true → SegmentDone roots lost r image ph l l')
            ∧ (ok = false → SegmentNull roots lost r ph l l') := by
        intro c l₂ hc hcat hmid
        obtain ⟨ok, c', l', hrun, hok, hnull⟩ :=
          zeroPages_spec hr hperm hfits (by omega) hroot hempty' hwant hc hcat
            hmid
        rw [hrun]
        refine ⟨ok, l', rfl, ?_, ?_⟩
        · intro htrue
          exact ⟨c', hok htrue⟩
        · intro hfalse
          obtain ⟨hmm, hgrows, hcost⟩ := hnull hfalse
          exact SegmentNull.mk' hmm (Nat.le_refl _) hfits hgrows hcost
      dsimp only
      unfold loadBss
      by_cases hlt : c.start < c.la
      · rw [if_pos hlt]
        by_cases hend : c.start = ph.pVa + ph.pMemsz
        · -- no part after the file's
          rw [if_pos hend]
          refine ⟨true, l₁, rfl, fun _ => ⟨c, hfilled, hend, ?_⟩,
            fun h => by cases h⟩
          have hdone := hat.done hstart (by omega) (by omega) hfilled.aligned
          rw [hdone, Proghdr.pastLast, ← hstart, hend]
        · rw [if_neg hend]
          obtain ⟨l₂, hrest, hfilled₂, hat₂⟩ :=
            zeroRest_spec hfilled hr hat hstart (by omega) hfits hlt hwant
          rw [hrest]
          apply hzero hfilled₂ hat₂
          dsimp only
          omega
      · rw [if_neg hlt]
        apply hzero hfilled (hat.widen (by omega) (by omega))
        omega

end Ucore.Exec
