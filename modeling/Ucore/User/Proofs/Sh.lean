/-
What the calls of `gettoken` make of a line: the tokens, and a string for
each word, with a blank for each quote character (`delivers_blanked`).

Between two calls the line is carved up to a position that is outside of
quotes and in no word that began before (`Resumes`). A call goes from there
over whitespace to the next token, and over it (`Scanned`). In a word `flag`
says whether the position is inside of quotes. What ends a word is
overwritten by the next call, and so the strings are read when there is no
token left.
-/
import Ucore.User.Sh
import Ucore.Libs.Proofs.String
import Mathlib.Tactic.ByContra

namespace Ucore.Sh

open Loop (Round)
open Runs

variable {mem : Nat → UInt8} {a i j x : Nat} {line : List UInt8} {sc : Scan}
  {ts : List (UInt8 × Nat)}

-- ========================================================== the line

/-- The line as the calls leave it. -/
def carved (line : List UInt8) (i : Nat) : UInt8 :=
  if InWord line i then
    if line.getD i 0 = quote then ' '.toUInt8 else line.getD i 0
  else 0

theorem not_inWord_end (h : line.length ≤ i) : ¬ InWord line i := fun hin =>
  absurd hin.1 (Nat.not_lt.mpr h)

theorem not_quoted_zero (line : List UInt8) : ¬ Quoted line 0 := by
  rw [Quoted, List.take_zero, List.count_nil]
  decide

/-- Quotes begin or end at a quote character. -/
theorem quoted_succ (h : x < line.length) :
    Quoted line (x + 1) ↔ (line.getD x 0 = quote ↔ ¬ Quoted line x) := by
  rw [Quoted, Quoted, List.take_add_one, List.count_append, List.getD_eq_getElem _ _ h,
    List.getElem?_eq_getElem h, Option.toList_some, List.count_singleton]
  by_cases hquote : (line)[x] = quote
  · rw [if_pos (beq_iff_eq.mpr hquote), iff_true_left hquote]
    omega
  · rw [if_neg (by simpa using hquote), iff_false_left hquote]
    omega

/-- A position where no word goes on, outside of quotes. -/
def Fresh (line : List UInt8) (x : Nat) : Prop :=
  ¬ Quoted line x ∧ (InWord line x → Starts (InWord line) x)

/-- After a separator. -/
theorem fresh_succ (h : Fresh line x) (hx : x < line.length)
    (hsep : line.getD x 0 ∈ whitespace ++ symbols) :
    ¬ InWord line x ∧ Fresh line (x + 1) := by
  have hword : ¬ InWord line x := fun hin =>
    hin.2.elim h.1 fun hnot => hnot hsep
  have hquote : line.getD x 0 ≠ quote := fun heq =>
    absurd (heq ▸ hsep) (by decide)
  refine ⟨hword, fun hquoted => ?_, starts_succ hword⟩
  exact hquote (((quoted_succ hx).mp hquoted).mpr h.1)

/-- A word, once what ends it is overwritten. -/
theorem stringAt_word (h : StringAt mem a line) (hrun : MaxRun (InWord line) i j)
    (hj : j ≤ line.length) :
    StringAt (rewritten mem a (carved line) line.length) (a + i)
      (blanked (line.extract i j)) := by
  have hlen := length_extract (i := i) hj
  have hlen' : (blanked (line.extract i j)).length = j - i :=
    (List.length_map _).trans hlen
  have hlt := hrun.lt
  refine ⟨fun hmem => ?_, fun k hk => ?_⟩
  · obtain ⟨c, hc, hzero⟩ := List.mem_map.mp hmem
    split at hzero
    case isTrue => exact absurd hzero (by decide)
    case isFalse => exact h.nul (hzero ▸ mem_of_mem_extract hc)
  · rw [hlen'] at hk
    rw [Nat.add_assoc]
    rcases Nat.lt_or_eq_of_le hk with hin | rfl
    · have hword := hrun.within (i + k) (Nat.le_add_right i k) (by omega)
      rw [rewritten_behind hword.1, carved, if_pos hword, ← getD_extract hj hin,
        List.getD_eq_getElem _ _ (by omega), List.getD_eq_getElem _ _ (by omega)]
      simp only [blanked, List.getElem_map]
    · rw [List.getD_eq_default _ _ (Nat.le_of_eq hlen'), Nat.add_sub_cancel' (by omega)]
      rcases Nat.lt_or_eq_of_le hj with hin | rfl
      · rw [rewritten_behind hin, carved, if_neg hrun.ends]
      · rw [rewritten_ahead (Nat.le_refl _), h.reads _ (Nat.le_refl _),
          List.getD_eq_default _ _ (Nat.le_refl _)]

-- ========================================================== the scan

/-- The tokens that start before `x`. -/
def toks (line : List UInt8) (a x : Nat) : List (UInt8 × Nat) :=
  (positions (TokenAt line) x).map (tokenOf line a)

/-- Where a call is at `x`, after the tokens `ts`: before the next one, or in
the word that it is. -/
def At (line : List UInt8) (a : Nat) (ts : List (UInt8 × Nat)) (x : Nat) :
    Place → Prop
  | .blanks => Fresh line x ∧ toks line a x = ts
  | .word p2 flag =>
      (flag = true ↔ Quoted line x)
        ∧ ∃ y, p2 = a + y ∧ y ≤ x ∧ Starts (InWord line) y
          ∧ (∀ k, y ≤ k → k < x → InWord line k) ∧ toks line a y = ts

/-- A call has come to position `x`. -/
structure Scanned (mem : Nat → UInt8) (a : Nat) (line : List UInt8)
    (ts : List (UInt8 × Nat)) (sc : Scan) (x : Nat) : Prop where
  le : x ≤ line.length
  s : sc.s = a + x
  mem : sc.mem = rewritten mem a (carved line) x
  place : At line a ts x sc.place

/-- A call can begin: `*p1` is where the line is carved to, or the line is
over. -/
structure Resumes (mem : Nat → UInt8) (a : Nat) (line : List UInt8)
    (mem' : Nat → UInt8) (p1 : Option Nat) (x : Nat) : Prop where
  le : x ≤ line.length
  mem : mem' = rewritten mem a (carved line) x
  start : ∀ s, p1 = some s → s = a + x ∧ Fresh line x
  ended : p1 = none → x = line.length

/-- What a call comes to, after the tokens `ts`. -/
def Outcome (mem : Nat → UInt8) (a : Nat) (line : List UInt8)
    (ts : List (UInt8 × Nat)) (got : Got) : Prop :=
  match got.token with
  | none => got.mem = rewritten mem a (carved line) line.length
      ∧ ts = tokensOf line a
  | some token => ∃ x, Resumes mem a line got.mem got.p1 x
      ∧ toks line a x = ts ++ [token]

theorem Scanned.char (h : Scanned mem a line ts sc x) (hline : StringAt mem a line) :
    sc.mem sc.s = line.getD x 0 := by
  rw [h.mem, h.s, rewritten_ahead (Nat.le_refl x), hline.reads x h.le]

theorem inside_of_ne (h : line.getD x 0 ≠ 0) : x < line.length := by
  by_contra hnot
  exact h (List.getD_eq_default _ _ (Nat.le_of_not_lt hnot))

/-- One character of whitespace. -/
theorem Scanned.white (h : Scanned mem a line ts sc x) (hplace : sc.place = .blanks)
    (hwhite : line.getD x 0 ∈ whitespace) :
    Scanned mem a line ts
      { sc with mem := Function.update sc.mem sc.s 0, s := sc.s + 1 } (x + 1) := by
  have hat := h.place
  rw [hplace] at hat
  have hx : x < line.length := inside_of_ne fun hzero =>
    absurd (hzero ▸ hwhite) (by decide)
  obtain ⟨hword, hfresh⟩ :=
    fresh_succ hat.1 hx (List.mem_append_left symbols hwhite)
  have hsymbol : line.getD x 0 ∉ symbols := by
    have hapart : whitespace.all fun c => decide (c ∉ symbols) := by decide
    exact of_decide_eq_true (List.all_eq_true.mp hapart _ hwhite)
  have hnone : ¬ TokenAt line x := fun htoken =>
    htoken.elim (fun hsym => hsymbol hsym.2) fun hstarts => hword hstarts.1
  refine ⟨hx, by rw [h.s, Nat.add_assoc], ?_, ?_⟩
  · show Function.update sc.mem sc.s 0 = _
    have hcarved : carved line x = 0 := if_neg hword
    rw [h.mem, h.s, ← hcarved, rewritten_store]
  · show At line a ts (x + 1) sc.place
    rw [hplace]
    refine ⟨hfresh, ?_⟩
    rw [toks, positions_skip hnone]
    exact hat.2

/-- There is no token left. -/
theorem Scanned.ended (h : Scanned mem a line ts sc x) (hplace : sc.place = .blanks)
    (hend : x = line.length) (p1 : Nat) :
    Outcome mem a line ts { mem := sc.mem, p1 := some p1, token := none } := by
  have hat := h.place
  rw [hplace] at hat
  subst hend
  exact ⟨h.mem, hat.2.symm⟩

/-- `*p1` at the end of a call. -/
theorem resumes_gotten {mem' : Nat → UInt8} (hline : StringAt mem a line)
    (hx : x ≤ line.length) (hmem : mem' = rewritten mem a (carved line) x)
    (hfresh : x < line.length → Fresh line x) (token : UInt8) (p2 : Nat) :
    Resumes mem a line (gotten mem' (a + x) token p2).mem
      (gotten mem' (a + x) token p2).p1 x := by
  have hchar : mem' (a + x) = line.getD x 0 := by
    rw [hmem, rewritten_ahead (Nat.le_refl x), hline.reads x hx]
  refine ⟨hx, hmem, fun s hs => ?_, fun hnone => ?_⟩
  · simp only [gotten] at hs
    split at hs
    case isTrue hne =>
      cases hs
      rw [hchar] at hne
      exact ⟨rfl, hfresh (inside_of_ne hne)⟩
    case isFalse => cases hs
  · simp only [gotten] at hnone
    split at hnone
    case isTrue => cases hnone
    case isFalse hzero =>
      rw [hchar, not_not, ← hline.reads x hx] at hzero
      exact (hline.read_eq_zero hx).mp hzero

/-- The token is a symbol. -/
theorem Scanned.symbol (h : Scanned mem a line ts sc x) (hline : StringAt mem a line)
    (hplace : sc.place = .blanks) (hsymbol : line.getD x 0 ∈ symbols) :
    Outcome mem a line ts
      (gotten (Function.update sc.mem sc.s 0) (sc.s + 1) (line.getD x 0) sc.s) := by
  have hat := h.place
  rw [hplace] at hat
  have hx : x < line.length := inside_of_ne fun hzero =>
    absurd (hzero ▸ hsymbol) (by decide)
  obtain ⟨hword, hfresh⟩ :=
    fresh_succ hat.1 hx (List.mem_append_right whitespace hsymbol)
  have hsym : IsSymbol line x := ⟨hat.1.1, hsymbol⟩
  have hmem : Function.update sc.mem sc.s 0
      = rewritten mem a (carved line) (x + 1) := by
    have hcarved : carved line x = 0 := if_neg hword
    rw [h.mem, h.s, ← hcarved, rewritten_store]
  refine ⟨x + 1, ?_, ?_⟩
  · rw [hmem, h.s, Nat.add_assoc]
    exact resumes_gotten hline hx rfl (fun _ => hfresh) _ _
  · rw [toks, positions_succ (.inl hsym), List.map_append, h.s]
    show toks line a x ++ [tokenOf line a x] = _
    rw [hat.2, tokenOf, if_pos hsym]

/-- The token is a word. -/
theorem Scanned.enter (h : Scanned mem a line ts sc x) (hplace : sc.place = .blanks)
    (hword : InWord line x) :
    Scanned mem a line ts { sc with place := .word sc.s false } x := by
  have hat := h.place
  rw [hplace] at hat
  refine ⟨h.le, h.s, h.mem, iff_of_false (fun h => by cases h) hat.1.1, x, h.s,
    Nat.le_refl x,
    hat.1.2 hword, fun k hk hlt => ?_, hat.2⟩
  exact absurd (Nat.lt_of_le_of_lt hk hlt) (Nat.lt_irrefl x)

/-- One character of a word. -/
theorem Scanned.next {p2 : Nat} {flag flag' : Bool} {mem' : Nat → UInt8}
    (h : Scanned mem a line ts sc x) (hplace : sc.place = .word p2 flag)
    (hword : InWord line x) (hmem : mem' = rewritten mem a (carved line) (x + 1))
    (hflag : flag' = true ↔ (line.getD x 0 = quote ↔ flag = false)) :
    Scanned mem a line ts
      { mem := mem', s := sc.s + 1, place := .word p2 flag' } (x + 1) := by
  have hat := h.place
  rw [hplace] at hat
  obtain ⟨hquoted, y, hp2, hle, hstarts, hwithin, hts⟩ := hat
  refine ⟨hword.1, by rw [h.s, Nat.add_assoc], hmem, ?_, y, hp2,
    Nat.le_succ_of_le hle, hstarts, fun k hk hlt => ?_, hts⟩
  · rw [quoted_succ hword.1, ← hquoted, hflag, Bool.not_eq_true]
  · rcases Nat.lt_or_eq_of_le (Nat.le_of_lt_succ hlt) with hin | rfl
    · exact hwithin k hk hin
    · exact hword

/-- A word ends. -/
theorem Scanned.leave {p2 : Nat} {flag : Bool} (h : Scanned mem a line ts sc x)
    (hline : StringAt mem a line) (hplace : sc.place = .word p2 flag)
    (hword : ¬ InWord line x) :
    Outcome mem a line ts (gotten sc.mem sc.s 'w'.toUInt8 p2) := by
  have hat := h.place
  rw [hplace] at hat
  obtain ⟨hquoted, y, hp2, hle, hstarts, hwithin, hts⟩ := hat
  have hlt : y < x := by
    rcases Nat.lt_or_eq_of_le hle with hlt | rfl
    · exact hlt
    · exact absurd hstarts.1 hword
  have hsymbol : ∀ k, InWord line k → ¬ IsSymbol line k := fun k hk hsym =>
    hk.2.elim hsym.1 fun hnot => hnot (List.mem_append_right whitespace hsym.2)
  -- within the word no other token starts
  have hnone : ∀ k, y < k → k < x → ¬ TokenAt line k := by
    intro k hk hkx htoken
    rcases htoken with hsym | hagain
    · exact hsymbol k (hwithin k (Nat.le_of_lt hk) hkx) hsym
    · obtain ⟨d, rfl⟩ := Nat.exists_eq_succ_of_ne_zero (Nat.ne_zero_of_lt hk)
      exact Starts.not_succ (hwithin d (Nat.le_of_lt_succ hk) (Nat.lt_of_succ_lt hkx))
        hagain
  refine ⟨x, ?_, ?_⟩
  · rw [h.s]
    refine resumes_gotten hline h.le h.mem (fun hx => ⟨fun hq => ?_, fun hin => ?_⟩) _ _
    · exact hword ⟨hx, .inl hq⟩
    · exact absurd hin hword
  · rw [toks, positions_first (.inr hstarts) hlt hnone, List.map_append]
    show toks line a y ++ [tokenOf line a y] = _
    rw [hts, tokenOf, if_neg (hsymbol y hstarts.1), hp2]

-- ========================================================= the calls

/-- The rounds that are left, at most. -/
def toGo (a : Nat) (line : List UInt8) (sc : Scan) : Nat :=
  2 * (line.length - (sc.s - a))
    + match sc.place with
      | .blanks => 1
      | .word _ _ => 0

/-- To go on by one position is to have less to go. -/
theorem toGo_next {sc' : Scan} (h : Scanned mem a line ts sc x)
    (h' : Scanned mem a line ts sc' (x + 1)) : toGo a line sc' < toGo a line sc := by
  rw [toGo, toGo, h.s, h'.s, Nat.add_sub_cancel_left, Nat.add_sub_cancel_left]
  have hle := h'.le
  split <;> omega

/-- The test of the loop over a word. -/
theorem Scanned.inWord_iff {p2 : Nat} {flag : Bool} (h : Scanned mem a line ts sc x)
    (hplace : sc.place = .word p2 flag) :
    line.getD x 0 ≠ 0
        ∧ (flag = true ∨ strchr (whitespace ++ symbols) (line.getD x 0) = none)
      → InWord line x := by
  have hat := h.place
  rw [hplace] at hat
  intro htest
  rw [strchr_eq_none, hat.1] at htest
  exact ⟨inside_of_ne htest.1, htest.2⟩

theorem Scanned.test {p2 : Nat} {flag : Bool} (h : Scanned mem a line ts sc x)
    (hline : StringAt mem a line) (hplace : sc.place = .word p2 flag)
    (hword : InWord line x) :
    line.getD x 0 ≠ 0
      ∧ (flag = true ∨ strchr (whitespace ++ symbols) (line.getD x 0) = none) := by
  have hat := h.place
  rw [hplace] at hat
  rw [strchr_eq_none, hat.1]
  exact ⟨hline.ne_nul hword.1, hword.2⟩

/-- A round goes on, with less to go, or the call comes to an end. -/
theorem round_scanned (hline : StringAt mem a line) (p1 : Nat) (sc : Scan)
    (h : ∃ x, Scanned mem a line ts sc x) :
    (∃ sc', round p1 sc = .again sc' ∧ (∃ x, Scanned mem a line ts sc' x)
        ∧ toGo a line sc' < toGo a line sc)
      ∨ ∃ got, round p1 sc = .stop got ∧ Outcome mem a line ts got := by
  obtain ⟨x, h⟩ := h
  have hchar := h.char hline
  cases hplace : sc.place with
  | blanks =>
      by_cases hwhite : line.getD x 0 ∈ whitespace
      · have hnext := h.white hplace hwhite
        refine .inl ⟨_, ?_, ⟨x + 1, hnext⟩, toGo_next h hnext⟩
        simp only [round, hplace, hchar]
        exact if_pos fun hnone => strchr_eq_none.mp hnone hwhite
      · have hnone : ¬ strchr whitespace (line.getD x 0) ≠ none :=
          not_not.mpr (strchr_eq_none.mpr hwhite)
        by_cases hend : line.getD x 0 = 0
        · have hx : x = line.length := by
            rw [← hline.reads x h.le] at hend
            exact (hline.read_eq_zero h.le).mp hend
          refine .inr ⟨_, ?_, h.ended hplace hx p1⟩
          simp only [round, hplace, hchar]
          exact (if_neg hnone).trans (if_pos hend)
        · by_cases hsymbol : line.getD x 0 ∈ symbols
          · refine .inr ⟨_, ?_, h.symbol hline hplace hsymbol⟩
            simp only [round, hplace, hchar]
            exact (if_neg hnone).trans ((if_neg hend).trans
              (if_pos fun hno => strchr_eq_none.mp hno hsymbol))
          · have hword : InWord line x := by
              refine ⟨inside_of_ne hend, .inr fun hmem => ?_⟩
              exact (List.mem_append.mp hmem).elim hwhite hsymbol
            have henter := h.enter hplace hword
            refine .inl ⟨_, ?_, ⟨x, henter⟩, ?_⟩
            · simp only [round, hplace, hchar]
              exact (if_neg hnone).trans ((if_neg hend).trans
                (if_neg (not_not.mpr (strchr_eq_none.mpr hsymbol))))
            · simp only [toGo, hplace]
              exact Nat.lt_succ_self _
  | word p2 flag =>
      by_cases hword : InWord line x
      · have htest := h.test hline hplace hword
        by_cases hquote : line.getD x 0 = quote
        · have hcarved : carved line x = ' '.toUInt8 := by
            rw [carved, if_pos hword, if_pos hquote]
          have hflag : (!flag) = true ↔ (line.getD x 0 = quote ↔ flag = false) := by
            rw [iff_true_left hquote, Bool.not_eq_true']
          have hnext := h.next hplace hword rewritten_store hflag
          rw [hcarved, ← h.mem, ← h.s] at hnext
          refine .inl ⟨_, ?_, ⟨x + 1, hnext⟩, toGo_next h hnext⟩
          simp only [round, hplace, hchar]
          exact (if_pos htest).trans (if_pos hquote)
        · have hcarved : carved line x = mem (a + x) := by
            rw [carved, if_pos hword, if_neg hquote, hline.reads x h.le]
          have hflag : flag = true ↔ (line.getD x 0 = quote ↔ flag = false) := by
            rw [iff_false_left hquote, Bool.not_eq_false]
          have hnext := h.next hplace hword (rewritten_pass hcarved) hflag
          rw [← h.mem] at hnext
          refine .inl ⟨_, ?_, ⟨x + 1, hnext⟩, toGo_next h hnext⟩
          simp only [round, hplace, hchar]
          exact (if_pos htest).trans (if_neg hquote)
      · refine .inr ⟨_, ?_, h.leave hline hplace hword⟩
        simp only [round, hplace, hchar]
        exact if_neg fun htest => hword (h.inWord_iff hplace htest)

/-- Every call comes to an end, with the next token if there is one. -/
theorem gettoken_outcome (hline : StringAt mem a line) {mem' : Nat → UInt8}
    {p1 : Option Nat} (h : Resumes mem a line mem' p1 x) :
    ∃ rounds got, gettoken rounds mem' p1 = some got
      ∧ Outcome mem a line (toks line a x) got := by
  cases p1 with
  | none =>
      obtain rfl := h.ended rfl
      exact ⟨0, _, rfl, h.mem, rfl⟩
  | some s =>
      obtain ⟨hs, hfresh⟩ := h.start s rfl
      exact Loop.returns_of_measure (toGo a line) (round_scanned hline s)
        ⟨x, h.le, hs, h.mem, hfresh, rfl⟩

theorem gettoken_le {rounds rounds' : Nat} {mem' : Nat → UInt8} {p1 : Option Nat}
    {got : Got} (h : gettoken rounds mem' p1 = some got) (hle : rounds ≤ rounds') :
    gettoken rounds' mem' p1 = some got := by
  cases p1 with
  | none => exact h
  | some s => exact Loop.run_le h hle

theorem tokens_le {rounds rounds' calls calls' : Nat} {mem' : Nat → UInt8}
    {p1 : Option Nat} {r : List (UInt8 × Nat) × (Nat → UInt8)}
    (h : tokens rounds calls mem' p1 = some r) (hle : rounds ≤ rounds')
    (hcalls : calls ≤ calls') : tokens rounds' calls' mem' p1 = some r := by
  induction calls generalizing mem' p1 r calls' with
  | zero => cases h
  | succ calls ih =>
      obtain ⟨calls', rfl⟩ := Nat.exists_eq_add_of_le' hcalls
      rw [tokens] at h
      obtain ⟨got, hgot, hrest⟩ := Option.bind_eq_some_iff.mp h
      rw [Nat.add_succ, tokens, gettoken_le hgot hle, Option.bind_some]
      cases htoken : got.token with
      | none =>
          simp only [htoken] at hrest ⊢
          exact hrest
      | some token =>
          simp only [htoken] at hrest ⊢
          obtain ⟨rest, hmore, heq⟩ := Option.map_eq_some_iff.mp hrest
          rw [ih hmore (Nat.le_add_left calls calls'), Option.map_some, heq]

/-- The calls from a position on: they come to an end with the tokens that
are left. -/
theorem tokens_resumed (hline : StringAt mem a line) {mem' : Nat → UInt8}
    {p1 : Option Nat} (h : Resumes mem a line mem' p1 x) {left : Nat}
    (hleft : (tokensOf line a).length < (toks line a x).length + left) :
    ∃ rounds calls rest, tokens rounds calls mem' p1
        = some (rest, rewritten mem a (carved line) line.length)
      ∧ toks line a x ++ rest = tokensOf line a := by
  induction left generalizing x mem' p1 with
  | zero =>
      have hle := positions_length_le (Q := TokenAt line) h.le
      rw [toks, tokensOf, List.length_map, List.length_map] at hleft
      omega
  | succ left ih =>
      obtain ⟨rounds, got, hgot, hout⟩ := gettoken_outcome hline h
      rw [Outcome] at hout
      cases htoken : got.token with
      | none =>
          simp only [htoken] at hout
          refine ⟨rounds, 1, [], ?_, ?_⟩
          · rw [tokens, hgot, Option.bind_some]
            simp only [htoken, hout.1]
          · rw [List.append_nil, hout.2]
      | some token =>
          simp only [htoken] at hout
          obtain ⟨x', hresumes, htoks⟩ := hout
          have hlen : (toks line a x').length = (toks line a x).length + 1 := by
            rw [htoks, List.length_append, List.length_singleton]
          obtain ⟨rounds', calls, rest, hrest, hall⟩ := ih hresumes (by omega)
          refine ⟨max rounds rounds', calls + 1, token :: rest, ?_, ?_⟩
          · rw [tokens, gettoken_le hgot (Nat.le_max_left rounds rounds'),
              Option.bind_some]
            simp only [htoken]
            rw [tokens_le hrest (Nat.le_max_right rounds rounds') (Nat.le_refl calls),
              Option.map_some]
          · rw [← hall, htoks, List.append_assoc]
            rfl

/-- All the calls for a line. -/
theorem tokens_line (hline : StringAt mem a line) :
    ∃ rounds calls, tokens rounds calls mem (some a)
      = some (tokensOf line a, rewritten mem a (carved line) line.length) := by
  have hfresh : Fresh line 0 := ⟨not_quoted_zero line, fun hword => ⟨hword, .inl rfl⟩⟩
  have hresumes : Resumes mem a line mem (some a) 0 := by
    refine ⟨Nat.zero_le _, (rewritten_zero mem a _).symm, fun s hs => ?_,
      fun h => by cases h⟩
    cases hs
    exact ⟨rfl, hfresh⟩
  obtain ⟨rounds, calls, rest, hrest, hall⟩ :=
    tokens_resumed hline hresumes (Nat.lt_add_left _ (Nat.lt_succ_self _))
  obtain rfl : rest = tokensOf line a := hall
  exact ⟨rounds, calls, hrest⟩

/-- The numbers of rounds and of calls make no difference. -/
theorem tokens_unique {rounds rounds' calls calls' : Nat} {mem' : Nat → UInt8}
    {p1 : Option Nat} {r r' : List (UInt8 × Nat) × (Nat → UInt8)}
    (h : tokens rounds calls mem' p1 = some r)
    (h' : tokens rounds' calls' mem' p1 = some r') : r = r' := by
  have hmax := tokens_le h (Nat.le_max_left rounds rounds') (Nat.le_max_left calls calls')
  have hmax' :=
    tokens_le h' (Nat.le_max_right rounds rounds') (Nat.le_max_right calls calls')
  exact Option.some.inj (hmax.symm.trans hmax')

/-- A word that starts is cut out of the line. -/
theorem words_carved (hline : StringAt mem a line) (hi : Starts (InWord line) i) :
    ∃ j, MaxRun (InWord line) i j
      ∧ StringAt (rewritten mem a (carved line) line.length) (a + i)
          (blanked (line.extract i j)) := by
  obtain ⟨j, hrun, hj⟩ := exists_run hi fun k hk => not_inWord_end hk
  exact ⟨j, hrun, stringAt_word hline hrun hj⟩

-- ======================================================== the result

/-- The calls of `gettoken` deliver the tokens of a line, with a blank for
each quote character. -/
theorem delivers_blanked (hline : StringAt mem a line) :
    Delivers blanked mem a line := by
  obtain ⟨rounds, calls, htokens⟩ := tokens_line hline
  exact ⟨rounds, calls, _, htokens, fun i hi => words_carved hline hi⟩

/-- `cat <"a b"`. -/
def catLine : List UInt8 := [99, 97, 116, 32, 60, 34, 97, 32, 98, 34]

theorem delivers_blanked_cat :
    StringAt (memoryOf catLine) 0 catLine ∧ Delivers blanked (memoryOf catLine) 0 catLine :=
  have hline : StringAt (memoryOf catLine) 0 catLine :=
    stringAt_memoryOf (by decide)
  ⟨hline, delivers_blanked hline⟩

/-- A quote character is in a word. -/
theorem exists_quoted_word (h : quote ∈ line) :
    ∃ i, Starts (InWord line) i
      ∧ ∀ j, MaxRun (InWord line) i j → j ≤ line.length → quote ∈ line.extract i j := by
  obtain ⟨q, hq, hchar⟩ := List.getElem_of_mem h
  have hget : line.getD q 0 = quote := (List.getD_eq_getElem _ _ hq).trans hchar
  have hword : InWord line q := ⟨hq, .inr (by rw [hget]; decide)⟩
  obtain ⟨i, hi, hstarts, hwithin⟩ := exists_starts hword
  refine ⟨i, hstarts, fun j hrun hj => ?_⟩
  have hlt : q < j := by
    by_contra hnot
    exact hrun.ends (hwithin j (Nat.le_of_lt hrun.lt) (Nat.le_of_not_lt hnot))
  have hlen := length_extract (i := i) hj
  have hthere : (line.extract i j).getD (q - i) 0 = line.getD (i + (q - i)) 0 :=
    getD_extract hj (by omega)
  rw [Nat.add_sub_cancel' hi, hget, List.getD_eq_getElem _ _ (by omega)] at hthere
  exact hthere ▸ List.getElem_mem _

theorem removed_eq_blanked {word : List UInt8} :
    removed word = blanked word ↔ quote ∉ word := by
  constructor
  · intro heq hquote
    have hlen := congrArg List.length heq
    rw [removed, blanked, List.length_map, List.length_filter_eq_length_iff] at hlen
    exact of_decide_eq_true (hlen quote hquote) rfl
  · intro hnone
    have hne : ∀ c ∈ word, c ≠ quote := fun c hc heq => hnone (heq ▸ hc)
    have hblanked : blanked word = word := by
      rw [blanked]
      exact (List.map_congr_left fun c hc => if_neg (hne c hc)).trans (List.map_id _)
    rw [hblanked, removed, List.filter_eq_self]
    exact fun c hc => decide_eq_true (hne c hc)

/-- The words come without their quote characters exactly if there is none in
the line. -/
theorem delivers_removed_iff (hline : StringAt mem a line) :
    Delivers removed mem a line ↔ quote ∉ line := by
  obtain ⟨rounds, calls, htokens⟩ := tokens_line hline
  constructor
  · intro hdelivers hquote
    obtain ⟨rounds', calls', mem', htokens', hwords⟩ := hdelivers
    obtain rfl := congrArg Prod.snd (tokens_unique htokens htokens')
    obtain ⟨i, hstarts, hin⟩ := exists_quoted_word hquote
    obtain ⟨j, hrun, hword⟩ := hwords i hstarts
    obtain ⟨j', hrun', hj'⟩ := exists_run hstarts fun k hk => not_inWord_end hk
    obtain rfl := hrun.unique hrun'
    have heq := hword.unique (stringAt_word hline hrun hj')
    exact removed_eq_blanked.mp heq (hin j hrun hj')
  · intro hnone
    refine ⟨rounds, calls, _, htokens, fun i hi => ?_⟩
    obtain ⟨j, hrun, hword⟩ := words_carved hline hi
    have hclean : quote ∉ line.extract i j := fun hmem =>
      hnone (mem_of_mem_extract hmem)
    rw [← removed_eq_blanked.mpr hclean] at hword
    exact ⟨j, hrun, hword⟩

/-- The quote characters of `"a"` are not removed. -/
theorem delivers_removed_quoted :
    StringAt (memoryOf [34, 97, 34]) 0 [34, 97, 34]
      ∧ ¬ Delivers removed (memoryOf [34, 97, 34]) 0 [34, 97, 34] := by
  have hline : StringAt (memoryOf [34, 97, 34]) 0 [34, 97, 34] :=
    stringAt_memoryOf (by decide)
  refine ⟨hline, fun hdelivers => ?_⟩
  exact (delivers_removed_iff hline).mp hdelivers (by decide)

end Ucore.Sh
