/-
`sysfile_read` and the position of its file. The position is advanced before
the piece is copied to the user, and is not put back where the copy fails: so
it counts a piece that the user does not get. Where the driver returns the
count of what it moved, that count is returned instead.
-/
import Ucore.Vfs.Sysfile
import Ucore.Vfs.Proofs.File

namespace Ucore.Vfs

open Sfs

variable {s s' : Files} {fd : Int} {mm : Option Mm.MmStruct}
  {base len rounds copied : Nat} {out : ReadOut}

-- ========================================================= file_read

theorem fd2file_open (h : OpenForRead s fd) :
    fd2file fd s = some (.ok fd.toNat, s) := by
  obtain ⟨htest, hstatus, hfd, -⟩ := h
  unfold fd2file
  show (if testfd fd ∧ (s.fdArray fd.toNat).status = .opened
      ∧ (s.fdArray fd.toNat).fd = fd then pure (.ok fd.toNat)
    else pure (.error .inval) : FileM (Except Err Nat)) s = _
  rw [if_pos ⟨htest, hstatus, hfd⟩]
  rfl

/-- `file_testfd` finds out whether the descriptor can be read from. -/
theorem fileTestfd_eq (s : Files) (fd : Int) :
    fileTestfd fd true false s = some (decide (OpenForRead s fd), s) := by
  unfold fileTestfd
  by_cases hfd : testfd fd ∧ (s.fdArray fd.toNat).status = .opened
      ∧ (s.fdArray fd.toNat).fd = fd
  · have hfile : fd2file fd s = some (.ok fd.toNat, s) := by
      unfold fd2file
      show (if testfd fd ∧ (s.fdArray fd.toNat).status = .opened
          ∧ (s.fdArray fd.toNat).fd = fd then pure (.ok fd.toNat)
        else pure (.error .inval) : FileM (Except Err Nat)) s = _
      rw [if_pos hfd]
      rfl
    rw [Call.bind_of_eq _ hfile]
    obtain ⟨htest, hstatus, hsame⟩ := hfd
    cases hread : (s.fdArray fd.toNat).readable with
    | false =>
        have hno : ¬ OpenForRead s fd := by
          intro hopen
          rw [hopen.2.2.2] at hread
          cases hread
        rw [decide_eq_false hno]
        show (if true = true ∧ ¬ (s.fdArray fd.toNat).readable = true
          then pure false else _ : FileM Bool) s = _
        rw [if_pos (by simp [hread])]
        rfl
    | true =>
        have hopen : OpenForRead s fd := ⟨htest, hstatus, hsame, hread⟩
        rw [decide_eq_true hopen]
        show (if true = true ∧ ¬ (s.fdArray fd.toNat).readable = true
          then pure false else _ : FileM Bool) s = _
        rw [if_neg (by simp [hread])]
        rfl
  · have hnone : fd2file fd s = some (.error .inval, s) := by
      unfold fd2file
      show (if testfd fd ∧ (s.fdArray fd.toNat).status = .opened
          ∧ (s.fdArray fd.toNat).fd = fd then pure (.ok fd.toNat)
        else pure (.error .inval) : FileM (Except Err Nat)) s = _
      rw [if_neg hfd]
      rfl
    have hno : ¬ OpenForRead s fd := fun hopen =>
      hfd ⟨hopen.1, hopen.2.1, hopen.2.2.1⟩
    rw [Call.bind_of_eq _ hnone, decide_eq_false hno]
    rfl

/-- No data of a file is moved. -/
theorem vopIo_count {i n : Nat} {pos : Int} {write : Bool} {fs fs' : SfsFs}
    (hrun : vopIo i pos len write fs = some (.ok n, fs')) : n = 0 := by
  unfold vopIo sfsIoNolock at hrun
  simp only [Call.bind_eq_some, Call.assert_eq_some] at hrun
  obtain ⟨_, _, _, _, _, _, _, _, _, _, _, _, hrun⟩ := hrun
  split at hrun
  case isTrue =>
      obtain ⟨hno, -⟩ := Call.pure_eq_some.1 hrun
      cases hno
  case isFalse =>
      split at hrun
      case isTrue =>
          obtain ⟨heq, -⟩ := Call.pure_eq_some.1 hrun
          exact Except.ok.inj heq
      case isFalse =>
          split at hrun
          case isTrue =>
              obtain ⟨heq, -⟩ := Call.pure_eq_some.1 hrun
              exact Except.ok.inj heq
          case isFalse =>
              split at hrun
              case isTrue =>
                  obtain ⟨_, _, -, hpure⟩ := Call.bind_eq_some.1 hrun
                  obtain ⟨heq, -⟩ := Call.pure_eq_some.1 hpure
                  exact Except.ok.inj heq
              case isFalse =>
                  obtain ⟨heq, -⟩ := Call.pure_eq_some.1 hrun
                  exact Except.ok.inj heq

/-- What `vop_read` moves, of a file that may be read. -/
theorem vopRead_delivers {node : Inode} {pos : Int} {ret : Except Err Nat}
    {alen : Nat} (hnode : (s.fdArray fd.toNat).node = some node)
    (hrun : vopReadWrite node pos len false s = some ((ret, alen), s')) :
    s'.fdArray = s.fdArray ∧ s'.dIo = s.dIo
      ∧ alen = (delivers s fd pos len).2
      ∧ (ret = (delivers s fd pos len).1 ∨ alen = 0 ∧ reported ret = 0) := by
  obtain ⟨_, t, hcheck, hrun⟩ := Call.bind_eq_some.1 hrun
  obtain ⟨v, -, rfl⟩ := onVfs_run hcheck
  unfold delivers
  rw [hnode]
  cases node with
  | sfs ino =>
      obtain ⟨r, t₁, hio, hpure⟩ := Call.bind_eq_some.1 hrun
      obtain ⟨v₁, hvfs, rfl⟩ := onVfs_run hio
      obtain ⟨fs, hsfs, -⟩ := onSfs_run hvfs
      cases r with
      | error e =>
          obtain ⟨heq, rfl⟩ := Call.pure_eq_some.1 hpure
          cases heq
          exact ⟨rfl, rfl, rfl, .inr ⟨rfl, rfl⟩⟩
      | ok n =>
          obtain ⟨heq, rfl⟩ := Call.pure_eq_some.1 hpure
          cases heq
          have hzero := vopIo_count hsfs
          exact ⟨rfl, rfl, hzero, .inl rfl⟩
  | dev id =>
      obtain ⟨t₁, t₂, hget, hrun⟩ := Call.bind_eq_some.1 hrun
      obtain ⟨rfl, rfl⟩ := Call.get_eq_some.1 hget
      obtain ⟨heq, rfl⟩ := Call.pure_eq_some.1 hrun
      have hanswer : s.dIo id pos len false = (ret, alen) := heq.symm
      refine ⟨rfl, rfl, ?_, .inl ?_⟩
      · show alen = (s.dIo id pos len false).2
        rw [hanswer]
      · show ret = (s.dIo id pos len false).1
        rw [hanswer]

theorem fdArrayAcquire_run {k : Nat} {u : Unit}
    (hrun : fdArrayAcquire k s = some (u, s')) :
    s'.dIo = s.dIo ∧ s'.fdArray k
      = { s.fdArray k with openCount := (s.fdArray k).openCount + 1 } := by
  obtain ⟨file, t, hget, hrun⟩ := Call.bind_eq_some.1 hrun
  obtain ⟨hfile, hsame⟩ := getFile_run hget
  rw [hsame, hfile] at hrun
  obtain ⟨_, t₁, hassert, hset⟩ := Call.bind_eq_some.1 hrun
  obtain ⟨-, hsame⟩ := Call.assert_eq_some.1 hassert
  rw [hsame] at hset
  obtain rfl := Call.modify_eq_some.1 hset
  exact ⟨rfl, Function.update_self _ _ _⟩

/-- A file that is open has been counted once more, or the call panics. -/
theorem fdArrayRelease_run {k : Nat} {u : Unit}
    (hopen : (s.fdArray k).status = .opened)
    (hrun : fdArrayRelease k s = some (u, s')) :
    s'.dIo = s.dIo ∧ s'.fdArray k
      = { s.fdArray k with openCount := (s.fdArray k).openCount - 1 } := by
  obtain ⟨file, t, hget, hrun⟩ := Call.bind_eq_some.1 hrun
  obtain ⟨hfile, hsame⟩ := getFile_run hget
  rw [hsame, hfile] at hrun
  obtain ⟨_, t₁, hassert, hrun⟩ := Call.bind_eq_some.1 hrun
  obtain ⟨-, hsame⟩ := Call.assert_eq_some.1 hassert
  rw [hsame] at hrun
  obtain ⟨_, t₂, hassert, hrun⟩ := Call.bind_eq_some.1 hrun
  obtain ⟨-, hsame⟩ := Call.assert_eq_some.1 hassert
  rw [hsame] at hrun
  obtain ⟨_, t₃, hset, hfree⟩ := Call.bind_eq_some.1 hrun
  obtain rfl := Call.modify_eq_some.1 hset
  by_cases hzero : (s.fdArray k).openCount - 1 = 0
  · rw [if_pos hzero] at hfree
    obtain ⟨last, v, hget, hfree⟩ := Call.bind_eq_some.1 hfree
    obtain ⟨hlast, hsame⟩ := getFile_run hget
    have hstill : last.status = .opened := by
      rw [hlast]
      simpa using hopen
    obtain ⟨_, v₁, hassert, -⟩ := Call.bind_eq_some.1 hfree
    obtain ⟨hbad, -⟩ := Call.assert_eq_some.1 hassert
    rw [hstill] at hbad
    rcases hbad with hbad | hbad
    · cases hbad
    · cases hbad
  · rw [if_neg hzero] at hfree
    obtain ⟨-, rfl⟩ := Call.pure_eq_some.1 hfree
    exact ⟨rfl, Function.update_self _ _ _⟩

/-- A read of an open file moves what there is and advances the position by
it. -/
theorem fileRead_run {ret : Except Err Nat} {alen : Nat}
    (h : OpenForRead s fd)
    (hrun : fileRead fd len s = some ((ret, alen), s')) :
    s'.dIo = s.dIo
      ∧ s'.fdArray fd.toNat = { s.fdArray fd.toNat with
          pos := (s.fdArray fd.toNat).pos + alen }
      ∧ alen = (delivers s fd (s.fdArray fd.toNat).pos len).2
      ∧ (ret = (delivers s fd (s.fdArray fd.toNat).pos len).1
        ∨ alen = 0 ∧ reported ret = 0) := by
  have hstatus := h.2.1
  have hread := h.2.2.2
  unfold fileRead fileReadWrite at hrun
  rw [Call.bind_of_eq _ (fd2file_open h)] at hrun
  obtain ⟨file, t, hget, hrun⟩ := Call.bind_eq_some.1 hrun
  obtain ⟨hfile, hsame⟩ := getFile_run hget
  rw [hsame, hfile] at hrun
  rw [if_neg (by simp [hread])] at hrun
  obtain ⟨_, t₁, hacquire, hrun⟩ := Call.bind_eq_some.1 hrun
  obtain ⟨hdIo₁, hfile₁⟩ := fdArrayAcquire_run hacquire
  obtain ⟨node, t₂, hnode, hrun⟩ := Call.bind_eq_some.1 hrun
  obtain ⟨hnode, hsame⟩ := Call.ofOption_eq_some.1 hnode
  rw [hsame] at hrun
  obtain ⟨⟨r, n⟩, t₃, hio, hrun⟩ := Call.bind_eq_some.1 hrun
  have hnode₁ : (t₁.fdArray fd.toNat).node = some node := by
    rw [hfile₁]
    exact hnode
  obtain ⟨harray, hdIo₃, hmoved, hret⟩ := vopRead_delivers hnode₁ hio
  have hdelivers : ∀ pos len, delivers t₁ fd pos len = delivers s fd pos len := by
    intro pos len
    unfold delivers
    rw [hnode₁, hnode, hdIo₁]
  rw [hdelivers] at hmoved hret
  obtain ⟨file₃, t₄, hget, hrun⟩ := Call.bind_eq_some.1 hrun
  obtain ⟨hfile₃, hsame⟩ := getFile_run hget
  rw [harray, hfile₁] at hfile₃
  rw [hsame, hfile₃, if_pos hstatus] at hrun
  obtain ⟨_, t₅, hset, hrun⟩ := Call.bind_eq_some.1 hrun
  have hfile₅ : t₅.fdArray fd.toNat = { s.fdArray fd.toNat with
      pos := (s.fdArray fd.toNat).pos + n
      openCount := (s.fdArray fd.toNat).openCount + 1 } := by
    rw [Call.modify_eq_some.1 hset]
    exact Function.update_self _ _ _
  have hdIo₅ : t₅.dIo = t₃.dIo := by
    rw [Call.modify_eq_some.1 hset]
  obtain ⟨_, t₆, hrelease, hpure⟩ := Call.bind_eq_some.1 hrun
  have hstill : (t₅.fdArray fd.toNat).status = .opened := by
    rw [hfile₅]
    exact hstatus
  obtain ⟨hdIo₆, hfile₆⟩ := fdArrayRelease_run hstill hrelease
  obtain ⟨heq, rfl⟩ := Call.pure_eq_some.1 hpure
  cases heq
  refine ⟨?_, ?_, hmoved, hret⟩
  · rw [hdIo₆, hdIo₅, hdIo₃, hdIo₁]
  · rw [hfile₆, hfile₅]
    simp

theorem OpenForRead.of_pos {n : Int} (h : OpenForRead s fd)
    (hfile : s'.fdArray fd.toNat = { s.fdArray fd.toNat with pos := n }) :
    OpenForRead s' fd := by
  unfold OpenForRead
  rw [hfile]
  exact h

/-- What a descriptor delivers does not change with its position. -/
theorem delivers_of_pos {n : Int}
    (hfile : s'.fdArray fd.toNat = { s.fdArray fd.toNat with pos := n })
    (hdIo : s'.dIo = s.dIo) : delivers s' fd = delivers s fd := by
  funext pos len
  unfold delivers
  rw [hfile, hdIo]

theorem pieces_congr (h : delivers s' fd = delivers s fd) :
    pieces s' fd = pieces s fd := by
  funext rounds
  induction rounds with
  | zero => rfl
  | succ rounds ih =>
      funext pos len
      unfold pieces
      rw [h, ih]

-- ========================================================== the loop

/-- A round: nothing is read, or a piece that is copied or not, which ends the
loop unless it is copied and the read returned 0. -/
theorem sysfileReadLoop_round (hlen : len ≠ 0)
    (hrun : sysfileReadLoop fd (rounds + 1) mm base len copied s
      = some (out, s')) :
    ∃ ret alen t, fileRead fd (min iobufSize len) s = some ((ret, alen), t)
      ∧ (alen = 0 ∧ out = ⟨ret, copied, mm⟩ ∧ s' = t
        ∨ alen ≠ 0 ∧ (copyToUser mm base alen).1 = false
          ∧ out.copied = copied ∧ s' = t
          ∧ out.ret = (if ret = .ok 0 then .error .inval else ret)
        ∨ alen ≠ 0 ∧ (copyToUser mm base alen).1 = true ∧ ret ≠ .ok 0
          ∧ out.copied = copied + alen ∧ s' = t ∧ out.ret = ret
        ∨ alen ≠ 0 ∧ (copyToUser mm base alen).1 = true ∧ ret = .ok 0
          ∧ sysfileReadLoop fd rounds (copyToUser mm base alen).2
            (base + alen) (len - alen) (copied + alen) t = some (out, s')) := by
  unfold sysfileReadLoop at hrun
  rw [if_pos hlen] at hrun
  obtain ⟨⟨ret, alen⟩, t, hread, hrun⟩ := Call.bind_eq_some.1 hrun
  refine ⟨ret, alen, t, hread, ?_⟩
  dsimp only at hrun
  by_cases hzero : alen = 0
  · rw [if_neg (not_not_intro hzero)] at hrun
    obtain ⟨rfl, rfl⟩ := Call.pure_eq_some.1 hrun
    exact .inl ⟨hzero, rfl, rfl⟩
  · rw [if_pos hzero] at hrun
    by_cases hdone : (copyToUser mm base alen).1 = true
    · rw [if_pos hdone] at hrun
      obtain ⟨_, t₁, hassert, hrun⟩ := Call.bind_eq_some.1 hrun
      obtain ⟨-, hsame⟩ := Call.assert_eq_some.1 hassert
      rw [hsame] at hrun
      by_cases hret : ret = .ok 0
      · rw [if_neg (not_not_intro hret)] at hrun
        exact .inr (.inr (.inr ⟨hzero, hdone, hret, hrun⟩))
      · rw [if_pos hret] at hrun
        obtain ⟨rfl, rfl⟩ := Call.pure_eq_some.1 hrun
        exact .inr (.inr (.inl ⟨hzero, hdone, hret, rfl, rfl, rfl⟩))
    · rw [if_neg hdone] at hrun
      have hfails := Bool.eq_false_iff.2 hdone
      by_cases hret : ret = .ok 0
      · rw [if_pos hret] at hrun
        obtain ⟨rfl, rfl⟩ := Call.pure_eq_some.1 hrun
        exact .inr (.inl ⟨hzero, hfails, rfl, rfl, (if_pos hret).symm⟩)
      · rw [if_neg hret] at hrun
        obtain ⟨rfl, rfl⟩ := Call.pure_eq_some.1 hrun
        exact .inr (.inl ⟨hzero, hfails, rfl, rfl, (if_neg hret).symm⟩)

/-- The loop does not run out of rounds. -/
theorem sysfileReadLoop_rounds (hlen : len ≤ rounds) :
    sysfileReadLoop fd (rounds + 1) mm base len copied
      = sysfileReadLoop fd rounds mm base len copied := by
  induction rounds generalizing mm base len copied with
  | zero =>
      have hzero : len = 0 := Nat.le_zero.1 hlen
      unfold sysfileReadLoop
      rw [if_neg (not_not_intro hzero)]
      unfold Call.assert
      rw [if_pos hzero]
      rfl
  | succ rounds ih =>
      rw [sysfileReadLoop]
      conv_rhs => rw [sysfileReadLoop]
      by_cases hzero : len = 0
      · rw [if_neg (not_not_intro hzero), if_neg (not_not_intro hzero)]
      · rw [if_pos hzero, if_pos hzero]
        congr 1
        funext r
        obtain ⟨ret, alen⟩ := r
        dsimp only
        by_cases halen : alen = 0
        · rw [if_neg (not_not_intro halen), if_neg (not_not_intro halen)]
        · rw [ih (by omega)]

/-- The pieces from one on that its driver does not count. -/
theorem lands_pieces {pos : Int} {ret : Except Err Nat} {n : Nat}
    (hlen : len ≠ 0) (hn : n ≠ 0) (hquiet : reported ret = 0)
    (hd : delivers s fd pos (min iobufSize len) = (ret, n)) :
    Lands (pieces s fd (rounds + 1) pos len) mm base
      ↔ (copyToUser mm base n).1 = true ∧ (ret = .ok 0 →
        Lands (pieces s fd rounds (pos + n) (len - n))
          (copyToUser mm base n).2 (base + n)) := by
  obtain ⟨k, rfl⟩ := Nat.exists_eq_succ_of_ne_zero hn
  rw [pieces, if_neg hlen, hd]
  cases ret with
  | error e =>
      show _ ∧ True ↔ _
      simp
  | ok c =>
      have hc : c = 0 := hquiet
      rw [hc]
      show _ ∧ _ ↔ _
      simp

/-- Nothing is read where nothing is delivered. -/
theorem pieces_nil {pos : Int} {ret : Except Err Nat}
    (hd : delivers s fd pos (min iobufSize len) = (ret, 0)) :
    pieces s fd rounds pos len = [] := by
  cases rounds with
  | zero => rfl
  | succ rounds =>
      unfold pieces
      rw [hd]
      exact ite_self _

/-- The loop, where the driver does not return counts: it counts what it has
copied, which is all that the position was advanced by just where every piece
is copied. -/
theorem sysfileReadLoop_counts (hopen : OpenForRead s fd)
    (hsilent : ∀ pos len n, (delivers s fd pos len).1 = .ok n → n = 0)
    (hrun : sysfileReadLoop fd rounds mm base len copied s = some (out, s')) :
    reported out.ret = 0 ∧ ∃ n : Nat,
      (s'.fdArray fd.toNat).pos = (s.fdArray fd.toNat).pos + n
        ∧ out.copied ≤ copied + n
        ∧ (out.copied = copied + n
          ↔ Lands (pieces s fd rounds (s.fdArray fd.toNat).pos len) mm base) := by
  induction rounds generalizing s mm base len copied with
  | zero =>
      obtain ⟨_, t, hassert, hpure⟩ := Call.bind_eq_some.1 hrun
      obtain ⟨-, rfl⟩ := Call.assert_eq_some.1 hassert
      obtain ⟨rfl, rfl⟩ := Call.pure_eq_some.1 hpure
      exact ⟨rfl, 0, (Int.add_zero _).symm, Nat.le_refl _,
        iff_of_true rfl trivial⟩
  | succ rounds ih =>
      by_cases hlen : len = 0
      · unfold sysfileReadLoop at hrun
        rw [if_neg (not_not_intro hlen)] at hrun
        obtain ⟨rfl, rfl⟩ := Call.pure_eq_some.1 hrun
        unfold pieces
        rw [if_pos hlen]
        exact ⟨rfl, 0, (Int.add_zero _).symm, Nat.le_refl _,
          iff_of_true rfl trivial⟩
      · obtain ⟨ret, alen, t, hread, hcases⟩ := sysfileReadLoop_round hlen hrun
        obtain ⟨hdIo, hfile, hmoved, hret⟩ := fileRead_run hopen hread
        have hpos : (t.fdArray fd.toNat).pos
            = (s.fdArray fd.toNat).pos + alen := by
          rw [hfile]
        have hquiet : reported ret = 0 := by
          rcases hret with hret | ⟨-, hret⟩
          · cases ret with
            | error e => rfl
            | ok n => exact hsilent _ _ n hret.symm
          · exact hret
        by_cases hzero : alen = 0
        · -- nothing was read
          obtain ⟨rfl, rfl⟩ : out = ⟨ret, copied, mm⟩ ∧ s' = t := by
            rcases hcases with ⟨-, hout⟩ | ⟨hsome, -⟩ | ⟨hsome, -⟩ | ⟨hsome, -⟩
            · exact hout
            · exact absurd hzero hsome
            · exact absurd hzero hsome
            · exact absurd hzero hsome
          rw [hzero] at hmoved hpos
          rw [pieces_nil (Prod.ext rfl hmoved.symm)]
          exact ⟨hquiet, 0, hpos, Nat.le_refl _, iff_of_true rfl trivial⟩
        · have hd : delivers s fd (s.fdArray fd.toNat).pos (min iobufSize len)
              = (ret, alen) := by
            have hr := hret.resolve_right fun h => hzero h.1
            exact Prod.ext hr.symm hmoved.symm
          rw [lands_pieces hlen hzero hquiet hd]
          rcases hcases with ⟨hno, -⟩ | ⟨-, hfails, hcopied, rfl, hout⟩
            | ⟨-, hdone, hbad, hcopied, rfl, hout⟩ | ⟨-, hdone, hok, hrest⟩
          · exact absurd hno hzero
          · -- the piece is not copied
            rw [hfails]
            refine ⟨?_, alen, hpos, by omega,
              iff_of_false (by omega) (by simp)⟩
            rw [hout]
            split
            case isTrue => rfl
            case isFalse => exact hquiet
          · -- it is, and is the last
            rw [hdone]
            refine ⟨hout ▸ hquiet, alen, hpos, by omega, ?_⟩
            exact iff_of_true hcopied ⟨rfl, fun h => absurd h hbad⟩
          · -- it is, and others follow
            have hsame := delivers_of_pos hfile hdIo
            obtain ⟨hreported, n, hend, hle, hiff⟩ :=
              ih (hopen.of_pos hfile) (hsame ▸ hsilent) hrest
            rw [hpos, pieces_congr hsame] at hiff
            refine ⟨hreported, alen + n, ?_, by omega, ?_⟩
            · rw [hend, hpos]
              push_cast
              omega
            · rw [hdone]
              simp only [hok, true_and, forall_const]
              rw [← hiff]
              omega

/-- A driver that returns counts ends the loop with its first piece. -/
theorem sysfileReadLoop_returned (hopen : OpenForRead s fd)
    (hcounts : ∀ pos len n, (delivers s fd pos len).1 = .ok n →
      n = (delivers s fd pos len).2)
    (hrun : sysfileReadLoop fd rounds mm base len 0 s = some (out, s')) :
    (s'.fdArray fd.toNat).pos = (s.fdArray fd.toNat).pos
        + (if out.copied ≠ 0 then out.copied else reported out.ret : Nat)
      ↔ Lands (pieces s fd rounds (s.fdArray fd.toNat).pos len) mm base := by
  cases rounds with
  | zero =>
      obtain ⟨_, t, hassert, hpure⟩ := Call.bind_eq_some.1 hrun
      obtain ⟨-, rfl⟩ := Call.assert_eq_some.1 hassert
      obtain ⟨rfl, rfl⟩ := Call.pure_eq_some.1 hpure
      exact iff_of_true (Int.add_zero _).symm trivial
  | succ rounds =>
      by_cases hlen : len = 0
      · unfold sysfileReadLoop at hrun
        rw [if_neg (not_not_intro hlen)] at hrun
        obtain ⟨rfl, rfl⟩ := Call.pure_eq_some.1 hrun
        rw [pieces, if_pos hlen]
        exact iff_of_true (Int.add_zero _).symm trivial
      · obtain ⟨ret, alen, t, hread, hcases⟩ := sysfileReadLoop_round hlen hrun
        obtain ⟨hdIo, hfile, hmoved, hret⟩ := fileRead_run hopen hread
        have hpos : (t.fdArray fd.toNat).pos
            = (s.fdArray fd.toNat).pos + alen := by
          rw [hfile]
        by_cases hzero : alen = 0
        · -- nothing was read, and that is what is returned
          obtain ⟨rfl, rfl⟩ : out = ⟨ret, 0, mm⟩ ∧ s' = t := by
            rcases hcases with ⟨-, hout⟩ | ⟨hsome, -⟩ | ⟨hsome, -⟩ | ⟨hsome, -⟩
            · exact hout
            · exact absurd hzero hsome
            · exact absurd hzero hsome
            · exact absurd hzero hsome
          have hquiet : reported ret = 0 := by
            rcases hret with hret | ⟨-, hret⟩
            · cases ret with
              | error e => rfl
              | ok n =>
                  have hn := hcounts _ _ n hret.symm
                  rw [← hmoved, hzero] at hn
                  exact hn
            · exact hret
          rw [hzero] at hmoved hpos
          rw [pieces_nil (Prod.ext rfl hmoved.symm)]
          refine iff_of_true ?_ trivial
          rw [hpos, if_neg (not_not_intro rfl), hquiet]
        · have hr := hret.resolve_right fun h => hzero h.1
          have hd : delivers s fd (s.fdArray fd.toNat).pos (min iobufSize len)
              = (ret, alen) := Prod.ext hr.symm hmoved.symm
          cases ret with
          | error e =>
              have hno : (Except.error e : Except Err Nat) ≠ .ok 0 :=
                fun h => by cases h
              rw [lands_pieces hlen hzero rfl hd]
              rcases hcases with ⟨hno', -⟩ | ⟨-, hfails, hcopied, rfl, hout⟩
                | ⟨-, hdone, -, hcopied, rfl, -⟩ | ⟨-, -, hok, -⟩
              · exact absurd hno' hzero
              · -- the error is returned, and no count
                rw [if_neg hno] at hout
                rw [hfails, hpos, hcopied, hout]
                refine iff_of_false ?_ (by simp)
                show ¬ _ = _ + ((0 : Nat) : Int)
                omega
              · rw [hdone, hpos, hcopied, Nat.zero_add, if_pos hzero]
                exact iff_of_true rfl ⟨rfl, fun h => absurd h hno⟩
              · exact absurd hok hno
          | ok n =>
              -- the count is returned, whether the piece is copied or not
              have hn : n = alen := by
                rw [hcounts _ _ n hr.symm, hmoved]
              have hno : (Except.ok n : Except Err Nat) ≠ .ok 0 := by
                intro heq
                exact hzero (hn ▸ Except.ok.inj heq)
              have hnone : pieces s fd (rounds + 1) (s.fdArray fd.toNat).pos len
                  = [] := by
                obtain ⟨k, rfl⟩ := Nat.exists_eq_succ_of_ne_zero hzero
                rw [pieces, if_neg hlen, hd, hn]
                rfl
              rw [hnone]
              refine iff_of_true ?_ trivial
              rcases hcases with ⟨hno', -⟩ | ⟨-, -, hcopied, rfl, hout⟩
                | ⟨-, -, -, hcopied, rfl, -⟩ | ⟨-, -, hok, -⟩
              · exact absurd hno' hzero
              · rw [if_neg hno] at hout
                rw [hpos, hcopied, hout, if_neg (not_not_intro rfl), hn]
                rfl
              · rw [hpos, hcopied, Nat.zero_add, if_pos hzero]
              · exact absurd hok hno

-- ====================================================== sysfile_read

/-- A read advances the position of its descriptor by what it reports as copied
exactly if every piece that it has to count is copied. -/
theorem sysfileRead_accounts {r : Except Err Nat} {mm' : Option Mm.MmStruct}
    (hrun : sysfileRead mm fd base len s = some ((r, mm'), s')) :
    (s'.fdArray fd.toNat).pos = (s.fdArray fd.toNat).pos + (reported r : Nat)
      ↔ ReadLands s mm fd base len := by
  unfold sysfileRead at hrun
  by_cases hlen : len = 0
  · rw [if_pos hlen] at hrun
    obtain ⟨heq, rfl⟩ := Call.pure_eq_some.1 hrun
    cases heq
    rw [hlen]
    exact iff_of_true (Int.add_zero _).symm fun _ => trivial
  · rw [if_neg hlen, Call.bind_of_eq _ (fileTestfd_eq s fd)] at hrun
    by_cases hopen : OpenForRead s fd
    · rw [decide_eq_true hopen, if_pos rfl] at hrun
      obtain ⟨out, t, hloop, hrun⟩ := Call.bind_eq_some.1 hrun
      have hr : reported r
          = (if out.copied ≠ 0 then out.copied else reported out.ret)
            ∧ s' = t := by
        by_cases hcopied : out.copied ≠ 0
        · rw [if_pos hcopied] at hrun
          obtain ⟨heq, rfl⟩ := Call.pure_eq_some.1 hrun
          cases heq
          exact ⟨(if_pos hcopied).symm, rfl⟩
        · rw [if_neg hcopied] at hrun
          obtain ⟨heq, rfl⟩ := Call.pure_eq_some.1 hrun
          cases heq
          exact ⟨(if_neg hcopied).symm, rfl⟩
      obtain ⟨hreported, rfl⟩ := hr
      have hlands : ReadLands s mm fd base len
          ↔ Lands (pieces s fd len (s.fdArray fd.toNat).pos len) mm base :=
        ⟨fun h => h hopen, fun h _ => h⟩
      rw [hreported, hlands]
      have hkind : (∀ pos len n, (delivers s fd pos len).1 = .ok n → n = 0)
          ∨ ∀ pos len n, (delivers s fd pos len).1 = .ok n →
            n = (delivers s fd pos len).2 := by
        unfold delivers
        cases hnode : (s.fdArray fd.toNat).node with
        | none => exact .inl fun _ _ _ h => (Except.ok.inj h).symm
        | some node =>
            cases node with
            | sfs ino => exact .inl fun _ _ _ h => (Except.ok.inj h).symm
            | dev id => exact s.dIoReturns id
      rcases hkind with hsilent | hcounts
      · obtain ⟨hquiet, n, hend, hle, hiff⟩ :=
          sysfileReadLoop_counts hopen hsilent hloop
        rw [Nat.zero_add] at hle hiff
        rw [← hiff, hend, hquiet]
        by_cases hcopied : out.copied ≠ 0
        · rw [if_pos hcopied]
          omega
        · rw [if_neg hcopied]
          omega
      · exact sysfileReadLoop_returned hopen hcounts hloop
    · rw [decide_eq_false hopen, if_neg (by simp)] at hrun
      obtain ⟨heq, rfl⟩ := Call.pure_eq_some.1 hrun
      cases heq
      exact iff_of_true (Int.add_zero _).symm fun h => absurd h hopen

-- ========================================================= two reads

/-- A device of blocks that is open at descriptor 0. -/
def diskFiles : Files :=
  { treeFiles with
    fdArray := Function.update treeFiles.fdArray 0
      { status := .opened, readable := true, writable := false, fd := 0
        pos := 0, node := some (.dev 0), openCount := 1 }
    dIo := fun _ offset len _ =>
      if offset % 4096 = 0 ∧ len % 4096 = 0 then (.ok 0, len)
      else (.error .inval, 0)
    dIoReturns := by
      intro id
      refine .inl fun offset len n h => ?_
      split at h
      case isTrue => exact (Except.ok.inj h).symm
      case isFalse => cases h }

/-- An address space with one page that can be written. -/
def onePage : Mm.MmStruct where
  mmapList := [⟨0x200000, 0x201000, Mm.vmRead ||| Mm.vmWrite⟩]
  mmapCache := none
  pgdir := 1
  mapCount := 1
  mmCount := 1

/-- A read of one block is accounted for. -/
theorem sysfileRead_accounts_block : ∃ r mm' s',
    sysfileRead (some onePage) 0 0x200000 4096 diskFiles = some ((r, mm'), s')
      ∧ ((s'.fdArray 0).pos = (diskFiles.fdArray 0).pos + (reported r : Nat)
        ↔ ReadLands diskFiles (some onePage) 0 0x200000 4096) := by
  have hsome : (sysfileRead (some onePage) 0 0x200000 4096 diskFiles).isSome
      = true := by
    decide +kernel
  obtain ⟨⟨⟨r, mm'⟩, s'⟩, hrun⟩ := Option.isSome_iff_exists.1 hsome
  exact ⟨r, mm', s', hrun, sysfileRead_accounts hrun⟩

/-- A read of two blocks into one page reports one block and moves the position
by two. -/
theorem sysfileRead_loses : ∃ r mm' s',
    sysfileRead (some onePage) 0 0x200000 8192 diskFiles = some ((r, mm'), s')
      ∧ r = .ok 4096
      ∧ (s'.fdArray 0).pos ≠ (diskFiles.fdArray 0).pos + (reported r : Nat) := by
  have hboth : (sysfileRead (some onePage) 0 0x200000 8192 diskFiles).map
      (fun r => (r.1.1, (r.2.fdArray 0).pos)) = some (.ok 4096, 8192) := by
    decide +kernel
  obtain ⟨⟨⟨r, mm'⟩, s'⟩, hrun, heq⟩ := Option.map_eq_some_iff.1 hboth
  obtain ⟨hr, hpos⟩ := Prod.mk.inj heq
  refine ⟨r, mm', s', hrun, hr, ?_⟩
  dsimp only at hr hpos
  rw [hr, hpos]
  decide

end Ucore.Vfs
