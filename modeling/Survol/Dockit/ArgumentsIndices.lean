import Survol.Dockit.ArgumentsScan

/-!
# The indices of the argument parser

`ParseCallArguments` moves two indices over the line, and takes quotes off an argument by going
back from its end, where it reads a character before it compares the indices. Here the parser is
written with its indices and its loops as they are, a character that is read out of range makes it
fail, and a negative index counts from the end as in the language. It never fails, and does what
`parseCallArguments` does.

## Main definitions

* `skipLoop`, `trimLoop` — the loops that move an index forward, and back.
* `parseAt`, `loopAt` — the parser, by its indices.

## Main results

* `loopAt_eq_and_parseAt_eq` — the indices stay in range.
* `parseAt_total` — the parser returns, for every text and position.
-/

open PyText

namespace Survol.Dockit

/-! ## Loops that move an index -/

/-- The loop `while i < limit and p(s[i]): i += 1`. -/
def skipLoop (p : Char → Bool) (s : Text) (limit i : ℕ) : Option ℕ :=
  if _h : i < limit then
    match s[i]? with
    | none => none
    | some c => if p c then skipLoop p s limit (i + 1) else some i
  else some i
termination_by limit - i

/-- The loop `while p(s[e]) and i <= e: e -= 1`. -/
def trimLoop (p : Char → Bool) (s : Text) (i : ℕ) (e : ℤ) : Option ℤ :=
  match pyIndex? s e with
  | none => none
  | some c => if _h : p c ∧ (i : ℤ) ≤ e then trimLoop p s i (e - 1) else some e
termination_by (e + 1 - i).toNat

/-- The text of an argument that ends at `ixEnd`, without what is skipped at its two ends. -/
def cleanAt (junk : Char → Bool) (strArgs : Text) (lenStr ixStart : ℕ) (ixEnd : ℤ) :
    Option Text := do
  let ixStart ← skipLoop isSpaceOrQuote strArgs lenStr ixStart
  let ixEnd ← trimLoop junk strArgs ixStart ixEnd
  return dropQuoteOfTruncated (pySlice strArgs ixStart (ixEnd + 1))

/-! ## The parser -/

/-- The argument that ends just before `ixCurr` is stored, and the spaces after it are skipped. -/
def ArgState.storeAt (strArgs : Text) (lenStr : ℕ) (st : ArgState) : Option ArgState := do
  let argClean ← cleanAt (· = '"') strArgs lenStr st.ixStart (st.ixCurr - 2)
  let ixCurr ← skipLoop (· = ' ') strArgs lenStr st.ixCurr
  return { st with
    theResult := st.theResult ++ [.str argClean], ixStart := ixCurr, ixCurr := ixCurr }

/-- What a closing bracket, already read, does. -/
def ArgState.closeAt (strArgs : Text) (lenStr : ℕ) (st : ArgState) : Option ArgState :=
  match st.levelParent with
  | level + 1 => some { st with levelParent := level }
  | 0 => if st.ixCurr = st.ixStart + 1 then some { st with finished := true }
    else (st.storeAt strArgs lenStr).map fun st => { st with finished := true }

/-- The argument left open by the end of the text is stored. -/
def ArgState.finishAt (strArgs : Text) (lenStr : ℕ) (st : ArgState) : Option (List Arg × ℕ) :=
  if st.ixStart < lenStr ∧ ¬ st.finished then do
    let argClean ← cleanAt isTailJunk strArgs lenStr st.ixStart (lenStr - 1)
    return (st.theResult ++ [.str argClean], st.ixCurr)
  else some (st.theResult, st.ixCurr)

/-- What the body of the loop does with the character at `ixCurr`. -/
def ArgState.bodyAt (strArgs : Text) (lenStr : ℕ) (st : ArgState) (aChr : Char) : Option ArgStep :=
  let st := { st with ixCurr := st.ixCurr + 1 }
  if st.isEscaped then some (.next { st with isEscaped := false })
  else if aChr = '\\' then some (.next { st with isEscaped := true })
  else if aChr = '"' then some (.next { st with inQuotes := !st.inQuotes })
  else if st.inQuotes then some (.next st)
  else if aChr = '[' ∨ aChr = '{' then
    if st.ixCurr = st.ixStart + 1 then some (.list st)
    else some (.next { st with levelParent := st.levelParent + 1 })
  else if aChr = '(' then some (.next { st with levelParent := st.levelParent + 1 })
  else if aChr = ')' ∨ aChr = ']' ∨ aChr = '}' then (st.closeAt strArgs lenStr).map .next
  else if aChr = ',' ∧ st.levelParent = 0 then (st.storeAt strArgs lenStr).map .next
  else some (.next st)

/-- A parsed list is stored, and the spaces and commas after it are skipped. -/
def ArgState.appendAt (strArgs : Text) (lenStr : ℕ) (st : ArgState) (objToAdd : List Arg)
    (ix : ℕ) : Option ArgState := do
  let ixStart ← skipLoop isSpaceOrComma strArgs lenStr ix
  return { st with
    theResult := st.theResult ++ [.list objToAdd], ixStart := ixStart, ixCurr := ixStart }

mutual
/-- `ParseCallArguments`, on the text from `ixStart` on. It fails when the fuel is exhausted, or
when an index is out of range. -/
def parseAt : ℕ → Text → ℕ → Option (List Arg × ℕ)
  | 0, _, _ => none
  | fuel + 1, strArgs, ix => do
    let ixStart ← skipLoop (· = ' ') strArgs strArgs.length ix
    let lenStr := argLimit strArgs ixStart
    let st ← loopAt fuel strArgs lenStr (ArgState.init ixStart)
    st.finishAt strArgs lenStr
/-- The loop of `ParseCallArguments` over the characters. -/
def loopAt : ℕ → Text → ℕ → ArgState → Option ArgState
  | 0, _, _, _ => none
  | fuel + 1, strArgs, lenStr, st =>
    if st.ixCurr < lenStr ∧ ¬ st.finished then
      match strArgs[st.ixCurr]? with
      | none => none
      | some aChr =>
        match st.bodyAt strArgs lenStr aChr with
        | none => none
        | some (.next st') => loopAt fuel strArgs lenStr st'
        | some (.list st') =>
          match parseAt fuel strArgs st'.ixCurr with
          | none => none
          | some (objToAdd, ix) =>
            match st'.appendAt strArgs lenStr objToAdd ix with
            | none => none
            | some st'' => loopAt fuel strArgs lenStr st''
    else some st
end

/-! ## The loops stay in range -/

section
variable {s : Text} {L i : ℕ} {p : Char → Bool}

/-- The character that is read, and what is left after it. -/
theorem view_eq_cons {c : Char} (hi : i < L) (hc : s[i]? = some c) :
    view s L i = c :: view s L (i + 1) := by
  have hget : (s.take L)[i]? = some c := by rw [List.getElem?_take, if_pos hi, hc]
  exact List.drop_eq_getElem?_toList_append.trans (by rw [hget]; rfl)

theorem skipLoop_eq (hL : L ≤ s.length) : skipLoop p s L i = some (skipWhile p s L i) := by
  fun_induction skipLoop p s L i with
  | case1 i hlt hnone =>
    rw [List.getElem?_eq_none_iff] at hnone
    omega
  | case2 i hlt c hc hp ih =>
    have hview : (s.take L).drop i = c :: (s.take L).drop (i + 1) := view_eq_cons hlt hc
    rw [ih, skipWhile, skipWhile, hview, List.takeWhile_cons_of_pos hp, List.length_cons,
      Nat.add_right_comm, Nat.add_assoc]
  | case3 i hlt c hc hp =>
    have hview : (s.take L).drop i = c :: (s.take L).drop (i + 1) := view_eq_cons hlt hc
    rw [skipWhile, hview, List.takeWhile_cons_of_neg hp, List.length_nil, Nat.add_zero]
  | case4 i hge =>
    have hview : (s.take L).drop i = [] := by
      rw [List.drop_eq_nil_iff]
      exact (List.length_take_le L s).trans (Nat.not_lt.mp hge)
    rw [skipWhile, hview]
    rfl

theorem pyIndex?_natCast (l : Text) (k : ℕ) : pyIndex? l (k : ℤ) = l[k]? := by
  have hneg : ¬ (k : ℤ) < 0 := Int.not_lt.mpr (Int.natCast_nonneg k)
  simp only [pyIndex?, if_neg hneg, Int.toNat_natCast]

/-- The index before the first one is that of the last character. -/
theorem pyIndex?_neg_one {l : Text} (h : l ≠ []) : ∃ c, pyIndex? l (-1) = some c := by
  have hlen := List.length_pos_of_ne_nil h
  have hlt : l.length - 1 < l.length := Nat.sub_lt hlen Nat.one_pos
  refine ⟨l[l.length - 1], ?_⟩
  have hj : ((-1 : ℤ) + l.length) = ((l.length - 1 : ℕ) : ℤ) := by omega
  have hneg : (-1 : ℤ) < 0 := by decide
  have hpos : ¬ ((l.length - 1 : ℕ) : ℤ) < 0 := Int.not_lt.mpr (Int.natCast_nonneg _)
  simp only [pyIndex?, if_pos hneg, hj, if_neg hpos, Int.toNat_natCast]
  exact List.getElem?_eq_getElem hlt

/-- Going back from the end of an argument, the index stays in range. -/
theorem trimLoop_eq (hs : s ≠ []) (junk : Char → Bool) (i e : ℕ) (he : e ≤ s.length) :
    ∃ e' : ℕ, trimLoop junk s i ((e : ℤ) - 1) = some ((e' : ℤ) - 1) ∧
      slice s i e' = (slice s i e).rdropWhile junk := by
  induction e with
  | zero =>
    obtain ⟨c, hc⟩ := pyIndex?_neg_one hs
    refine ⟨0, ?_, by simp [slice]⟩
    have hindex : ((0 : ℕ) : ℤ) - 1 = -1 := rfl
    rw [trimLoop, hindex, hc]
    dsimp only
    rw [dif_neg (by omega)]
  | succ e ih =>
    have hlt : e < s.length := he
    have hindex : ((e + 1 : ℕ) : ℤ) - 1 = (e : ℤ) := by omega
    rw [trimLoop, hindex, pyIndex?_natCast, List.getElem?_eq_getElem hlt]
    dsimp only
    by_cases hie : i ≤ e
    · have hslice : slice s i (e + 1) = slice s i e ++ [s[e]] := by
        rw [slice, slice, ← List.take_append_getElem hlt, List.drop_append_of_le_length]
        rw [List.length_take]
        omega
      by_cases hjunk : junk s[e] = true
      · obtain ⟨e', htrim, hdrop⟩ := ih (Nat.le_of_lt hlt)
        refine ⟨e', ?_, ?_⟩
        · rw [dif_pos ⟨hjunk, Int.ofNat_le.mpr hie⟩, htrim]
        · rw [hdrop, hslice, List.rdropWhile_concat_pos junk _ _ hjunk]
      · refine ⟨e + 1, ?_, ?_⟩
        · rw [dif_neg fun h => hjunk h.1, hindex]
        · rw [hslice, List.rdropWhile_concat_neg junk _ _ hjunk]
    · refine ⟨e + 1, ?_, ?_⟩
      · rw [dif_neg fun h => hie (Int.ofNat_le.mp h.2), hindex]
      · have hnil : slice s i (e + 1) = [] := by
          rw [slice, List.drop_eq_nil_iff]
          exact (List.length_take_le _ s).trans (by omega)
        rw [hnil]
        rfl

theorem cleanAt_eq (hs : s ≠ []) (hL : L ≤ s.length) (junk : Char → Bool) {e : ℕ}
    (he : e ≤ s.length) :
    cleanAt junk s L i ((e : ℤ) - 1) = some (cleanArg junk s L i e) := by
  obtain ⟨e', htrim, hslice⟩ := trimLoop_eq hs junk (skipWhile isSpaceOrQuote s L i) e he
  rw [cleanAt, skipLoop_eq hL]
  simp only [Option.bind_eq_bind, Option.bind_some, htrim]
  rw [Int.sub_add_cancel, pySlice_natCast, hslice]
  rfl

theorem storeAt_eq (hs : s ≠ []) (hL : L ≤ s.length) {st : ArgState} (h₁ : 1 ≤ st.ixCurr)
    (h₂ : st.ixCurr ≤ L) : st.storeAt s L = some (st.store s L) := by
  have hindex : (st.ixCurr : ℤ) - 2 = ((st.ixCurr - 1 : ℕ) : ℤ) - 1 := by omega
  rw [ArgState.storeAt, hindex, cleanAt_eq hs hL _ (by omega), skipLoop_eq hL]
  rfl

theorem closeAt_eq (hs : s ≠ []) (hL : L ≤ s.length) {st : ArgState} (h₁ : 1 ≤ st.ixCurr)
    (h₂ : st.ixCurr ≤ L) : st.closeAt s L = some (st.close s L) := by
  unfold ArgState.closeAt ArgState.close
  cases st.levelParent with
  | succ level => rfl
  | zero =>
    dsimp only
    rw [storeAt_eq hs hL h₁ h₂]
    split <;> rfl

theorem bodyAt_eq (hL : L ≤ s.length) {st : ArgState} (h : st.ixCurr < L) (c : Char) :
    st.bodyAt s L c = some (st.body s L c) := by
  have hs : s ≠ [] := by
    rintro rfl
    rw [List.length_nil] at hL
    omega
  have hclose := @closeAt_eq s L hs hL { st with ixCurr := st.ixCurr + 1 } (by simp) h
  have hstore := @storeAt_eq s L hs hL { st with ixCurr := st.ixCurr + 1 } (by simp) h
  simp only [ArgState.bodyAt, ArgState.body, hclose, hstore, Option.map_some]
  split_ifs <;> rfl

theorem appendAt_eq (hL : L ≤ s.length) (st : ArgState) (objToAdd : List Arg) (ix : ℕ) :
    st.appendAt s L objToAdd ix = some (st.append s L objToAdd ix) := by
  rw [ArgState.appendAt, skipLoop_eq hL]
  rfl

theorem finishAt_eq (hL : L ≤ s.length) (st : ArgState) :
    st.finishAt s L = some (st.finish s L) := by
  unfold ArgState.finishAt ArgState.finish
  split
  · rename_i h
    have hs : s ≠ [] := by
      rintro rfl
      rw [List.length_nil] at hL
      omega
    rw [cleanAt_eq hs hL _ hL]
    rfl
  · rfl

end

/-! ## The parser stays in range -/

/-- **No index is out of range**: the parser with its indices does what the parser on texts does. -/
theorem loopAt_eq_and_parseAt_eq (n : ℕ) :
    (∀ {s : Text} {i : ℕ}, i ≤ s.length → parseAt n s i = parseArgs n s i) ∧
    (∀ {s : Text} {L : ℕ} {st : ArgState}, L ≤ s.length → st.ixCurr ≤ L →
      argLimit s st.ixCurr = L → loopAt n s L st = argLoop n s L st) := by
  induction n with
  | zero => exact ⟨fun _ => rfl, fun _ _ _ => rfl⟩
  | succ n ih =>
    obtain ⟨ihp, ihl⟩ := ih
    constructor
    · intro s i hi
      have hj : skipWhile (· = ' ') s s.length i ≤ s.length := skipWhile_le hi
      have hlim := argLimit_le hj
      rw [parseAt, parseArgs, skipLoop_eq le_rfl]
      simp only [Option.bind_eq_bind, Option.bind_some]
      rw [ihl hlim.1 hlim.2 rfl]
      cases argLoop n s _ _ with
      | none => rfl
      | some st => exact finishAt_eq hlim.1 st
    · intro s L st hL hcur hlim
      have hlater : ∀ {k : ℕ}, st.ixCurr ≤ k → k ≤ L → argLimit s k = L :=
        fun hk hk' => (argLimit_of_le hk (hlim ▸ hk')).trans hlim
      rw [loopAt, argLoop]
      split
      · rename_i hlt
        have hlen : st.ixCurr < s.length := by omega
        have hbounds := @body_bounds s L st s[st.ixCurr] hlt.1
        rw [List.getElem?_eq_getElem hlen]
        dsimp only
        rw [bodyAt_eq hL hlt.1]
        cases hb : st.body s L s[st.ixCurr] with
        | next st₁ =>
          simp only [hb] at hbounds
          exact ihl hL hbounds.2 (hlater (by omega) hbounds.2)
        | list st₁ =>
          simp only [hb] at hbounds
          have hst₁ : st₁.ixCurr ≤ s.length := by omega
          have hnest : argLimit s st₁.ixCurr = L := hlater (by omega) (by omega)
          dsimp only
          rw [ihp hst₁]
          cases hp : parseArgs n s st₁.ixCurr with
          | none => rfl
          | some r =>
            obtain ⟨r', hr', hge, hle⟩ := @parseArgs_isSome s st₁.ixCurr hst₁
            have hm := parseArgs_mono hp (Nat.le_max_left n (2 * s.length + 3))
            have hm' := parseArgs_mono hr' (Nat.le_max_right n (2 * s.length + 3))
            cases hm.symm.trans hm'
            rw [hnest] at hle
            obtain ⟨objToAdd, ix⟩ := r
            dsimp only at hge hle ⊢
            rw [appendAt_eq hL]
            dsimp only
            have hge' : ix ≤ (st₁.append s L objToAdd ix).ixCurr := le_skipWhile
            have hle' : (st₁.append s L objToAdd ix).ixCurr ≤ L := skipWhile_le hle
            exact ihl hL hle' (hlater (by omega) hle')
      · rfl

/-- **The parser returns**, an index between its start and the end of the text. -/
theorem parseAt_total {s : Text} {i : ℕ} (hi : i ≤ s.length) :
    parseAt (2 * s.length + 3) s i = some (parseCallArguments s i) ∧
      i ≤ (parseCallArguments s i).2 ∧ (parseCallArguments s i).2 ≤ s.length := by
  obtain ⟨r, hr, hge, hle⟩ := parseArgs_isSome hi
  have hparse : parseCallArguments s i = r := parseCallArguments_of_parseArgs hi hr
  rw [hparse, (loopAt_eq_and_parseAt_eq _).1 hi, hr]
  exact ⟨rfl, hge, hle.trans (argLimit_le hi).1⟩

end Survol.Dockit
