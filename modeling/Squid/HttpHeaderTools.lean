import Squid.Anyp.Uri

/-!
# Quoted strings of header fields (`HttpHeaderTools.cc`)

`httpHeaderQuoteString(raw)` puts a value between double quotes, with a backslash before
each `"` and `\` when there is one; `httpHeaderParseQuotedString(start, len, val)` reads a
quoted string back.  Its loop copies a run of text bytes at a time, and after a backslash it
starts the next run at the escaped byte; but the run stops at once on a `"` or a `\`, and the
escaped byte is never copied.  The loop then sees an escaped `"` as the closing quote, and an
escaped `\` as the start of another escape.  A tab, which RFC 7230 allows in a quoted string,
fails the control-byte check.

* `runEnd`, `parseQuotedLoop`, `httpHeaderParseQuotedString`   the parser, with `start` the
  C string from the opening quote on; the loop gets one round of fuel for each byte of `len`;
* `httpHeaderQuoteString`   the quoter;
* `parse_quoteString`   what the parser reads back from a quoted value of visible ASCII,
  spaces and tabs: the value up to its first `"`, without its backslashes, and a failure when
  a tab comes before that `"`.
-/

namespace Squid

section QuotedString

variable (s : List UInt8) (len : Int)

/-- the test of the inner `while` loop: a byte that the run copies -/
def qdText (c : UInt8) : Bool := c != 92 && c != 34 && 0x1F < c && c != 0x7F

/-- `if (((unsigned char)*end <= 0x1F && *end != '\r' && *end != '\n') || *end == 0x7F)` -/
def badCtl (c : UInt8) : Bool := (c ≤ 0x1F && c != 13 && c != 10) || c == 0x7F

/-- where the inner `while` loop stops: `end` runs over text bytes while `end < start+len` -/
def runEnd (pos : Nat) : Nat :=
  pos + (((s.drop pos).take (len.toNat - pos)).takeWhile qdText).length

/-- The outer `while (*pos != '"' && len > (pos-start))` loop of
`httpHeaderParseQuotedString` from the offset `pos`, with the value `val` so far. -/
def parseQuotedLoop : Nat → Nat → List UInt8 → Option (List UInt8)
  | 0, _, _ => none
  | fuel + 1, pos, val =>
    if s.getD pos 0 != 34 && (pos : Int) < len then
      -- a CR must start a CR LF; the LF branch below then reads the LF
      if s.getD pos 0 == 13 && ((pos + 1 : Int) > len || s.getD (pos + 1) 0 != 10) then none
      else
        let pos := if s.getD pos 0 == 13 then pos + 1 else pos
        if s.getD pos 0 == 10 then
          -- `TODO: replace the entire LWS with a space`
          if (pos + 1 : Int) > len || (s.getD (pos + 1) 0 != 32 && s.getD (pos + 1) 0 != 9) then
            none
          else parseQuotedLoop fuel (pos + 2) (val ++ [32])
        else
          let quoted := s.getD pos 0 == 92
          let pos := if quoted then pos + 1 else pos
          if quoted && (s.getD pos 0 == 0 || (pos : Int) > len) then none
          else
            let e := runEnd s len pos
            if badCtl (s.getD e 0) then none
            else parseQuotedLoop fuel e (val ++ (s.drop pos).take (e - pos))
    else if s.getD pos 0 == 34 then some val
    else none

/-- `httpHeaderParseQuotedString(start, len, &val)`: the value on success -/
def httpHeaderParseQuotedString : Option (List UInt8) :=
  if s.getD 0 0 != 34 then none else parseQuotedLoop s len (len.toNat + 2) 1 []

end QuotedString

/-- a byte that `httpHeaderQuoteString` escapes -/
def needsQuotedPair (c : UInt8) : Bool := c == 34 || c == 92

/-- `httpHeaderQuoteString(raw)` -/
def httpHeaderQuoteString (raw : List UInt8) : List UInt8 :=
  let needInnerQuote := raw.any needsQuotedPair
  [34] ++ (if needInnerQuote then raw.flatMap fun c => if needsQuotedPair c then [92, c] else [c]
    else raw) ++ [34]

-- a value with a quoted pair reads back cut at the escaped quote
example : httpHeaderParseQuotedString (httpHeaderQuoteString (cstr "a\"b"))
    (httpHeaderQuoteString (cstr "a\"b")).length = some (cstr "a") := by decide

/-! ## One round of the loop -/

/-- the quoted form of one byte -/
def quotedPair (c : UInt8) : List UInt8 := if needsQuotedPair c then [92, c] else [c]

/-- Without a byte to escape, quoting each byte changes nothing. -/
theorem flatMap_quotedPair_of_all {raw : List UInt8} (h : raw.any needsQuotedPair = false) :
    raw.flatMap quotedPair = raw := by
  induction raw with
  | nil => rfl
  | cons c raw ih =>
    simp only [List.any_cons, Bool.or_eq_false_iff] at h
    rw [List.flatMap_cons, quotedPair, if_neg (by simp [h.1]), ih h.2, List.singleton_append]

theorem httpHeaderQuoteString_eq (raw : List UInt8) :
    httpHeaderQuoteString raw = 34 :: (raw.flatMap quotedPair ++ [34]) := by
  unfold httpHeaderQuoteString
  dsimp only
  split
  · rfl
  · next h => rw [flatMap_quotedPair_of_all (by simpa using h)]; rfl

section Rounds

variable {s : List UInt8} {len : Int}

/-- The loop that is continued from the end `runEnd pos` of a run that starts at `pos`,
after the control-byte check. -/
def afterRun (s : List UInt8) (len : Int) (fuel pos : Nat) (val : List UInt8) :
    Option (List UInt8) :=
  let e := runEnd s len pos
  if badCtl (s.getD e 0) then none else parseQuotedLoop s len fuel e (val ++ (s.drop pos).take (e - pos))

theorem parseQuotedLoop_quote {pos : Nat} (fuel : Nat) (val : List UInt8)
    (h : s.getD pos 0 = 34) : parseQuotedLoop s len (fuel + 1) pos val = some val := by
  rw [parseQuotedLoop, h]
  rfl

/-- A round at a byte that is no quote, backslash, CR or LF is one run. -/
theorem parseQuotedLoop_run {pos : Nat} {c : UInt8} (fuel : Nat) (val : List UInt8)
    (hpos : (pos : Int) < len) (hc : s.getD pos 0 = c) (h34 : c ≠ 34) (h92 : c ≠ 92)
    (h13 : c ≠ 13) (h10 : c ≠ 10) :
    parseQuotedLoop s len (fuel + 1) pos val = afterRun s len fuel pos val := by
  have hc' : s[pos]?.getD 0 = c := by rw [← hc, List.getD_eq_getElem?_getD]
  rw [parseQuotedLoop, hc]
  simp [afterRun, h34, h92, h13, h10, hpos, hc']

/-- A round at a backslash is a run from the escaped byte. -/
theorem parseQuotedLoop_escape {pos : Nat} (fuel : Nat) (val : List UInt8)
    (hpos : (pos + 1 : Int) ≤ len) (h92 : s.getD pos 0 = 92) (hnext : s.getD (pos + 1) 0 ≠ 0) :
    parseQuotedLoop s len (fuel + 1) pos val = afterRun s len fuel (pos + 1) val := by
  have hlt : (pos : Int) < len := by omega
  have h92' : s[pos]?.getD 0 = 92 := by rw [← h92, List.getD_eq_getElem?_getD]
  have hnext' : s[pos + 1]?.getD 0 ≠ 0 := by rw [← List.getD_eq_getElem?_getD]; exact hnext
  rw [parseQuotedLoop, h92]
  simp [afterRun, hlt, hnext', h92', show ¬ ((pos : Int) + 1 > len) by omega]

/-- A run stops at once on a byte that is not text. -/
theorem runEnd_stop {pos : Nat} (h : qdText (s.getD pos 0) = false) : runEnd s len pos = pos := by
  unfold runEnd
  rcases hd : s.drop pos with _ | ⟨c, t⟩
  · simp
  · have hc : s.getD pos 0 = c := by
      rw [List.getD_eq_getElem?_getD, ← List.head?_drop, hd]
      rfl
    rcases Nat.eq_zero_or_pos (len.toNat - pos) with hz | hz
    · simp [hz]
    · obtain ⟨k, hk⟩ : ∃ k, len.toNat - pos = k + 1 := ⟨_, (Nat.succ_pred_eq_of_pos hz).symm⟩
      have hc2 : qdText c = false := hc ▸ h
      rw [hk, List.take_succ_cons, List.takeWhile_cons_of_neg (by simp [hc2])]
      rfl

/-- A text byte inside `len` extends the run that starts after it. -/
theorem runEnd_text {pos : Nat} (hpos : (pos : Int) < len) (h : qdText (s.getD pos 0) = true) :
    runEnd s len pos = runEnd s len (pos + 1) := by
  unfold runEnd
  have hlt : pos < s.length := by
    by_contra hge
    rw [List.getD_eq_default _ _ (by omega)] at h
    exact absurd h (by decide)
  rw [List.drop_eq_getElem_cons hlt]
  obtain ⟨k, hk⟩ : ∃ k, len.toNat - pos = k + 1 := ⟨len.toNat - pos - 1, by omega⟩
  have hk' : len.toNat - (pos + 1) = k := by omega
  have hc : s.getD pos 0 = s[pos] := by simp [List.getD_eq_getElem?_getD, hlt]
  rw [hk, hk', List.take_succ_cons, List.takeWhile_cons_of_pos (by rw [← hc]; exact h),
    List.length_cons]
  omega

theorem afterRun_text {pos : Nat} (fuel : Nat) (val : List UInt8) (hpos : (pos : Int) < len)
    (h : qdText (s.getD pos 0) = true) :
    afterRun s len fuel pos val = afterRun s len fuel (pos + 1) (val ++ [s.getD pos 0]) := by
  have he := runEnd_text hpos h
  have hlt : pos < s.length := by
    by_contra hge
    rw [List.getD_eq_default _ _ (by omega)] at h
    exact absurd h (by decide)
  have hgt : pos + 1 ≤ runEnd s len (pos + 1) := by unfold runEnd; omega
  have hslice : (s.drop pos).take (runEnd s len (pos + 1) - pos) =
      s.getD pos 0 :: (s.drop (pos + 1)).take (runEnd s len (pos + 1) - (pos + 1)) := by
    rw [List.drop_eq_getElem_cons hlt, show runEnd s len (pos + 1) - pos =
      runEnd s len (pos + 1) - (pos + 1) + 1 by omega, List.take_succ_cons]
    simp [List.getD_eq_getElem?_getD, hlt]
  unfold afterRun
  dsimp only
  rw [he, hslice, List.append_cons]

theorem afterRun_stop {pos : Nat} (fuel : Nat) (val : List UInt8)
    (h : qdText (s.getD pos 0) = false) :
    afterRun s len fuel pos val =
      if badCtl (s.getD pos 0) then none else parseQuotedLoop s len fuel pos val := by
  simp [afterRun, runEnd_stop h]

end Rounds

/-! ## Reading a quoted value back -/

/-- what the parser reads back from a quoted value `w`, after the value `val` -/
def readBack (w val : List UInt8) : Option (List UInt8) :=
  if 9 ∈ w.takeWhile (· ≠ 34) then none else some (val ++ (w.takeWhile (· ≠ 34)).filter (· ≠ 92))

/-- visible ASCII, space and tab -/
def isVisibleOrBlank (c : UInt8) : Prop := c = 9 ∨ (32 ≤ c ∧ c ≤ 126)

instance : DecidablePred isVisibleOrBlank := fun c => inferInstanceAs (Decidable (c = 9 ∨ _))

theorem readBack_text {c : UInt8} (w val : List UInt8) (h34 : c ≠ 34) (h92 : c ≠ 92)
    (h9 : c ≠ 9) : readBack (c :: w) val = readBack w (val ++ [c]) := by
  simp [readBack, h34, h92, Ne.symm h9, List.takeWhile_cons_of_pos]

theorem readBack_backslash (w val : List UInt8) : readBack (92 :: w) val = readBack w val := by
  simp [readBack, List.takeWhile_cons_of_pos]

theorem getD_of_drop {s w : List UInt8} {pos : Nat} {c : UInt8} (h : s.drop pos = c :: w) :
    s.getD pos 0 = c := by
  rw [List.getD_eq_getElem?_getD, ← List.head?_drop, h]
  rfl

theorem drop_succ_of_drop {s w : List UInt8} {pos : Nat} {c : UInt8} (h : s.drop pos = c :: w) :
    s.drop (pos + 1) = w := by
  rw [← List.drop_drop, h]
  rfl

theorem ne_zero_of_isVisibleOrBlank {c : UInt8} (h : isVisibleOrBlank c) : c ≠ 0 := by
  rintro rfl
  rcases h with h | ⟨h, -⟩ <;> revert h <;> decide

/-- The quoted form of a value, closed by its quote, starts with no NUL. -/
theorem getD_quoted_ne_zero {s w : List UInt8} {pos : Nat} (hv : ∀ c ∈ w, isVisibleOrBlank c)
    (hd : s.drop pos = w.flatMap quotedPair ++ [34]) : s.getD pos 0 ≠ 0 := by
  cases w with
  | nil => rw [getD_of_drop (show s.drop pos = 34 :: [] from hd)]; decide
  | cons d w =>
    rw [List.flatMap_cons, quotedPair] at hd
    split at hd
    · rw [getD_of_drop (show s.drop pos = 92 :: _ from hd)]; decide
    · rw [getD_of_drop (show s.drop pos = d :: _ from hd)]
      exact ne_zero_of_isVisibleOrBlank (hv d List.mem_cons_self)

theorem length_flatMap_quotedPair_cons (c : UInt8) (w : List UInt8) :
    ((c :: w).flatMap quotedPair).length =
      (if needsQuotedPair c then 2 else 1) + (w.flatMap quotedPair).length := by
  rw [List.flatMap_cons, List.length_append, quotedPair]
  split <;> rfl

/-- The loop over the quoted form of `w` followed by the closing quote, both as a fresh round
and as the rest of a run that started before it.  The induction is on `w`; one text byte is one
more byte of the run, and an escaped `\` hands the next byte to a new run. -/
theorem parseQuotedLoop_quoted (s : List UInt8) (len : Int) :
    ∀ (w : List UInt8), (∀ c ∈ w, isVisibleOrBlank c) → ∀ (pos fuel : Nat) (val : List UInt8),
      s.drop pos = w.flatMap quotedPair ++ [34] →
      (pos : Int) + (w.flatMap quotedPair).length + 1 = len →
      (w.flatMap quotedPair).length + 2 ≤ fuel + 1 →
      parseQuotedLoop s len (fuel + 1) pos val = readBack w val ∧
        afterRun s len fuel pos val = readBack w val
  | [], _, pos, fuel, val, hd, _, hfuel => by
    have h34 : s.getD pos 0 = 34 := getD_of_drop hd
    obtain ⟨f, rfl⟩ : ∃ f, fuel = f + 1 := ⟨fuel - 1, by simp at hfuel; omega⟩
    have hq : parseQuotedLoop s len (f + 1) pos val = some val := parseQuotedLoop_quote f val h34
    refine ⟨by rw [parseQuotedLoop_quote _ _ h34]; simp [readBack], ?_⟩
    rw [afterRun_stop _ _ (by rw [h34]; rfl), h34, hq]
    simp [readBack, badCtl]
  | c :: w, hv, pos, fuel, val, hd, hlen, hfuel => by
    have hvc := hv c List.mem_cons_self
    have hvw : ∀ c ∈ w, isVisibleOrBlank c := fun x hx => hv x (List.mem_cons_of_mem _ hx)
    rw [length_flatMap_quotedPair_cons] at hlen hfuel
    by_cases hq : needsQuotedPair c
    · -- `\` then `c`: the backslash is an escape, and so is a `\` after it
      have hd' : s.drop pos = 92 :: c :: (w.flatMap quotedPair ++ [34]) := by
        rw [hd, List.flatMap_cons, quotedPair, if_pos hq]
        rfl
      rw [if_pos hq] at hlen hfuel
      have h92 : s.getD pos 0 = 92 := getD_of_drop hd'
      have hc : s.getD (pos + 1) 0 = c := getD_of_drop (drop_succ_of_drop hd')
      have hcq : qdText c = false := by
        simp only [needsQuotedPair, Bool.or_eq_true, beq_iff_eq] at hq
        rcases hq with rfl | rfl <;> rfl
      have hcne : c ≠ 0 := by rintro rfl; simp [needsQuotedPair] at hq
      -- both forms come down to a run from the escaped byte, which stops at once
      have key : ∀ g, (w.flatMap quotedPair).length + 2 ≤ g →
          afterRun s len g (pos + 1) val = readBack (c :: w) val := by
        intro g hg
        obtain ⟨g, rfl⟩ : ∃ g', g = g' + 1 := ⟨g - 1, by omega⟩
        rw [afterRun_stop _ _ (by rw [hc]; exact hcq), hc]
        simp only [needsQuotedPair, Bool.or_eq_true, beq_iff_eq] at hq
        rcases hq with rfl | rfl
        · -- an escaped quote ends the string
          rw [if_neg (by decide), parseQuotedLoop_quote _ _ hc]
          simp [readBack]
        · -- an escaped backslash: the next byte starts another escape or run
          have hd2 : s.drop (pos + 2) = w.flatMap quotedPair ++ [34] :=
            drop_succ_of_drop (drop_succ_of_drop hd')
          rw [if_neg (by decide), parseQuotedLoop_escape g val (by omega) hc
            (getD_quoted_ne_zero hvw hd2), readBack_backslash]
          exact (parseQuotedLoop_quoted s len w hvw (pos + 2) g val hd2 (by omega)
            (by omega)).2
      obtain ⟨f, rfl⟩ : ∃ f, fuel = f + 1 := ⟨fuel - 1, by omega⟩
      refine ⟨?_, ?_⟩
      · rw [parseQuotedLoop_escape _ val (by omega) h92 (by rw [hc]; exact hcne)]
        exact key (f + 1) (by omega)
      · rw [afterRun_stop _ _ (by rw [h92]; rfl), h92, if_neg (by decide),
          parseQuotedLoop_escape f val (by omega) h92 (by rw [hc]; exact hcne)]
        exact key f (by omega)
    · -- a byte copied as it is: a text byte, or a tab that fails the check
      have hd' : s.drop pos = c :: (w.flatMap quotedPair ++ [34]) := by
        rw [hd, List.flatMap_cons, quotedPair, if_neg hq]
        rfl
      rw [if_neg hq] at hlen hfuel
      have hc : s.getD pos 0 = c := getD_of_drop hd'
      simp only [needsQuotedPair, Bool.or_eq_true, beq_iff_eq, not_or] at hq
      have h13 : c ≠ 13 := by rintro rfl; rcases hvc with h | h <;> simp_all
      have h10 : c ≠ 10 := by rintro rfl; rcases hvc with h | h <;> simp_all
      have hrun : parseQuotedLoop s len (fuel + 1) pos val = afterRun s len fuel pos val :=
        parseQuotedLoop_run fuel val (by omega) hc hq.1 hq.2 h13 h10
      rw [hrun]
      suffices afterRun s len fuel pos val = readBack (c :: w) val from ⟨this, this⟩
      by_cases h9 : c = 9
      · subst h9
        rw [afterRun_stop _ _ (by rw [hc]; rfl), hc]
        simp [readBack, badCtl]
      · have htext : qdText c = true := by
          rcases hvc with h | ⟨hlo, hhi⟩
          · exact absurd h h9
          · have h127 : c ≠ 127 := by rintro rfl; exact absurd hhi (by decide)
            simp [qdText, hq.1, hq.2, h127]
            exact UInt8.lt_of_lt_of_le (by decide) hlo
        rw [afterRun_text _ _ (by omega) (by rw [hc]; exact htext), hc,
          readBack_text w val hq.1 hq.2 h9]
        exact (parseQuotedLoop_quoted s len w hvw (pos + 1) fuel (val ++ [c])
          (drop_succ_of_drop hd') (by omega) (by omega)).2

/-- The parser reads a quoted value of visible ASCII, spaces and tabs back up to its first
`"`, without its backslashes, and fails on a tab before that quote. -/
theorem parse_quoteString (v : List UInt8) (hv : ∀ c ∈ v, isVisibleOrBlank c) :
    httpHeaderParseQuotedString (httpHeaderQuoteString v) (httpHeaderQuoteString v).length =
      if 9 ∈ v.takeWhile (· ≠ 34) then none
      else some ((v.takeWhile (· ≠ 34)).filter (· ≠ 92)) := by
  rw [httpHeaderQuoteString_eq]
  have hd : (34 :: (v.flatMap quotedPair ++ [34])).drop 1 = v.flatMap quotedPair ++ [34] := rfl
  have h := (parseQuotedLoop_quoted _ ((34 :: (v.flatMap quotedPair ++ [34])).length : Int) v hv 1
    ((v.flatMap quotedPair ++ [34]).length + 2) [] hd (by simp; omega) (by simp)).1
  simp only [httpHeaderParseQuotedString, List.getD_cons_zero, bne_self_eq_false,
    Bool.false_eq_true, if_false]
  rw [show (((34 :: (v.flatMap quotedPair ++ [34])).length : Int)).toNat + 2 =
    ((v.flatMap quotedPair ++ [34]).length + 2) + 1 by
      simp only [Int.toNat_natCast, List.length_cons], h]
  simp [readBack]

/-- A lone `"` is quoted as `"\""`, and read back as the empty string. -/
theorem parse_quoteString_quote :
    (∀ c ∈ [(34 : UInt8)], isVisibleOrBlank c) ∧
      httpHeaderParseQuotedString (httpHeaderQuoteString [34])
        (httpHeaderQuoteString [34]).length = some [] :=
  ⟨by decide +kernel, (parse_quoteString [34] (by decide +kernel)).trans (by decide +kernel)⟩

end Squid
