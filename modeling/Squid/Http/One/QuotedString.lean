import Squid.Http.One.Parser

/-!
# Tokens and quoted strings (`http/one/Tokenizer.cc`)

`tokenOrQuotedString(tok, http1p0)` reads an HTTP token or a quoted-string.  The loop of
`parseQuotedStringSuffix` alternates runs of qdtext, quoted-pairs (HTTP/1.1 only) and the
closing quote; it throws `InsufficientInput` when the buffer ends before the value does.

The model is the one of `Squid.Http.One.Parser`; `parseQuotedStringLoop_succ` and
`tokenOrQuotedString_eq` restate its do blocks as plain matches, with the qdtext run of a round
as a step of its own (`qdTextRun`).

* `tokenOrQuotedString_quote`   a quoted-string of HTTP/1.1 reads back as the bytes quoted;
* `tokenOrQuotedString_token`   a token followed by a byte outside `TCHAR` reads back;
* `tokenOrQuotedString_insufficient`   `InsufficientInput` only where some continuation of
  the buffer is accepted.
-/

namespace Squid.Http.One
open Squid.Parser CharacterSet Tokenizer

/-- `if (tok.prefix(qdText, tokenChars)) parsedToken.append(qdText)` -/
def qdTextRun (tokenChars : CharacterSet) (parsedToken : List UInt8) (tok : Tokenizer) :
    List UInt8 × Tokenizer :=
  match tok.tokenPrefix tokenChars with
  | some (qdText, tok) => (parsedToken ++ qdText, tok)
  | none => (parsedToken, tok)

theorem qdTextRun_length_le (tokenChars : CharacterSet) (parsedToken : List UInt8)
    (tok : Tokenizer) : (qdTextRun tokenChars parsedToken tok).2.buf.length ≤ tok.buf.length := by
  unfold qdTextRun
  split
  · next h => exact tokenPrefix_length_le h
  · exact Nat.le_refl _

/-- One round of the loop, with the qdtext run as a step of its own. -/
theorem parseQuotedStringLoop_succ (http1p0 : Bool) (fuel : Nat) (parsedToken : List UInt8)
    (tok : Tokenizer) :
    parseQuotedStringLoop http1p0 (fuel + 1) parsedToken tok =
      if tok.atEnd then throw .insufficientInput
      else
        let run := qdTextRun (if http1p0 then qdtext1p0 else qdtext1p1) parsedToken tok
        match (if http1p0 then none else run.2.skipChar 92) with
        | some tok2 =>
          if tok2.atEnd then throw .insufficientInput
          else
            match tok2.tokenPrefix qPairChars 1 with
            | none => throw (.textException "invalid escaped character in quoted-pair")
            | some (escaped, tok3) => parseQuotedStringLoop http1p0 fuel (run.1 ++ escaped) tok3
        | none =>
          match run.2.skipChar 34 with
          | some tok2 => .ok (run.1, tok2)
          | none =>
            if run.2.atEnd then throw .insufficientInput
            else throw (.textException ("invalid bytes for set " ++
              if http1p0 then "qdtext (HTTP/1.0)" else "qdtext (HTTP/1.1)")) := by
  rw [parseQuotedStringLoop, qdTextRun]
  dsimp only
  split
  · rfl
  · cases tok.tokenPrefix (if http1p0 then qdtext1p0 else qdtext1p1) with
    | none =>
      dsimp only
      generalize (if http1p0 = true then none else tok.skipChar 92) = o
      cases o with
      | none => cases tok.skipChar 34 <;> rfl
      | some t => rfl
    | some r =>
      obtain ⟨qdText, tok1⟩ := r
      dsimp only
      generalize (if http1p0 = true then none else tok1.skipChar 92) = o
      cases o with
      | none => cases tok1.skipChar 34 <;> rfl
      | some t => rfl

theorem tokenOrQuotedString_eq (tok : Tokenizer) (http1p0 : Bool) :
    tokenOrQuotedString tok http1p0 =
      match tok.skipChar 34 with
      | some tok => parseQuotedStringSuffix tok http1p0
      | none =>
        if tok.atEnd then throw .insufficientInput
        else
          match tok.tokenPrefix CharacterSet.TCHAR with
          | none => throw (.textException "invalid input while expecting an HTTP token")
          | some (parsedToken, tok) =>
            if tok.atEnd then throw .insufficientInput else .ok (parsedToken, tok) := by
  rw [tokenOrQuotedString]
  cases tok.skipChar 34 <;> rfl

/-! ## The character sets as ranges of octets -/

theorem qPairChars_contains (c : UInt8) :
    qPairChars.contains c = true ↔
      c.toNat = 9 ∨ c.toNat = 32 ∨ 33 ≤ c.toNat ∧ c.toNat ≤ 126 ∨ 128 ≤ c.toNat := by
  simp only [qPairChars, HTAB, SP, VCHAR, OBSTEXT, range, ofBytes, HAdd.hAdd, Add.add,
    List.contains_cons, List.contains_nil, Bool.or_false, Bool.or_eq_true, beq_iff_eq,
    Bool.and_eq_true, decide_eq_true_eq, UInt8.le_iff_toNat_le, ← UInt8.toNat_inj,
    UInt8.reduceToNat]
  have := c.toNat_lt
  omega

theorem qdtext1p1_contains (c : UInt8) :
    qdtext1p1.contains c = true ↔
      c.toNat = 9 ∨ c.toNat = 32 ∨ c.toNat = 33 ∨ 35 ≤ c.toNat ∧ c.toNat ≤ 91 ∨
        93 ≤ c.toNat ∧ c.toNat ≤ 126 ∨ 128 ≤ c.toNat := by
  simp only [qdtext1p1, HTAB, SP, OBSTEXT, range, ofBytes, HAdd.hAdd, Add.add,
    show cstr "!" = [33] from rfl, List.contains_cons, List.contains_nil, Bool.or_false,
    Bool.or_eq_true, beq_iff_eq, Bool.and_eq_true, decide_eq_true_eq, UInt8.le_iff_toNat_le,
    ← UInt8.toNat_inj, UInt8.reduceToNat]
  have := c.toNat_lt
  omega

theorem qdtext1p1_of_qPair {c : UInt8} (h : qPairChars.contains c = true) (h34 : c ≠ 34)
    (h92 : c ≠ 92) : qdtext1p1.contains c = true := by
  have h34' : c.toNat ≠ 34 := fun e => h34 (UInt8.toNat_inj.mp e)
  have h92' : c.toNat ≠ 92 := fun e => h92 (UInt8.toNat_inj.mp e)
  rw [qPairChars_contains] at h
  rw [qdtext1p1_contains]
  omega

theorem qPair_of_qdtext1p1 {c : UInt8} (h : qdtext1p1.contains c = true) :
    qPairChars.contains c = true := by
  rw [qdtext1p1_contains] at h
  rw [qPairChars_contains]
  omega

/-! ## The qdtext run -/

/-- A run of the set ends at the first byte outside it, and is empty before such a byte. -/
theorem qdTextRun_plain {tokenChars : CharacterSet} {u rest : List UInt8} (acc : List UInt8)
    (parsed : Nat) (hu : ∀ a ∈ u, tokenChars.contains a = true)
    (hrest : ∃ c ∈ rest.head?, tokenChars.contains c = false) (hlen : u.length < npos) :
    qdTextRun tokenChars acc ⟨u ++ rest, parsed⟩ = (acc ++ u, ⟨rest, parsed + u.length⟩) := by
  cases u with
  | nil =>
    obtain ⟨c, hc, hcs⟩ := hrest
    cases rest with
    | nil => simp at hc
    | cons c' rest =>
      obtain rfl : c' = c := by simpa using hc
      rw [List.nil_append, qdTextRun, tokenPrefix_head_out rest parsed hcs (by decide),
        List.append_nil, List.length_nil, Nat.add_zero]
  | cons a u =>
    rw [qdTextRun, tokenPrefix_append (List.cons_ne_nil a u) hu hrest hlen]

/-- The run on a longer buffer: the same, when it stopped inside the buffer or when the
first added byte is outside the set. -/
theorem qdTextRun_extend {tokenChars : CharacterSet} {acc y : List UInt8} {tok : Tokenizer}
    (htok : tok.buf ≠ [])
    (hstop : (qdTextRun tokenChars acc tok).2.buf ≠ [] ∨
      ∃ c ∈ y.head?, tokenChars.contains c = false)
    (hlen : tok.buf.length < npos) :
    qdTextRun tokenChars acc (tok.extend y) =
      ((qdTextRun tokenChars acc tok).1, (qdTextRun tokenChars acc tok).2.extend y) := by
  unfold qdTextRun at hstop ⊢
  cases htp : tok.tokenPrefix tokenChars with
  | none =>
    rw [Tokenizer.tokenPrefix_extend_none htok htp y]
  | some r =>
    obtain ⟨qdText, t'⟩ := r
    rw [htp] at hstop
    rcases hstop with hne | hy
    · rw [Tokenizer.tokenPrefix_extend htp hne y]
    · rw [tokenPrefix_extend_stop htp hy hlen]

/-! ## Quoting -/

/-- `s` with `"` and `\` escaped by a backslash -/
def escape (s : List UInt8) : List UInt8 :=
  s.flatMap fun c => if c = 34 ∨ c = 92 then [92, c] else [c]

/-- `s` as a quoted-string -/
def quote (s : List UInt8) : List UInt8 := 34 :: escape s ++ [34]

theorem escape_nil : escape [] = [] := rfl

theorem escape_append (s s' : List UInt8) : escape (s ++ s') = escape s ++ escape s' :=
  List.flatMap_append

theorem escape_plain {u : List UInt8} (hu : ∀ c ∈ u, ¬ (c = 34 ∨ c = 92)) : escape u = u := by
  induction u with
  | nil => rfl
  | cons c u ih =>
    rw [escape, List.flatMap_cons, if_neg (hu c List.mem_cons_self), ← escape,
      ih fun c' hc' => hu c' (List.mem_cons_of_mem c hc')]
    rfl

theorem escape_special {c : UInt8} (hc : c = 34 ∨ c = 92) (s : List UInt8) :
    escape (c :: s) = 92 :: c :: escape s := by
  rw [escape, List.flatMap_cons, if_pos hc]
  rfl

/-- the loop on an escaped string and its closing quote, by induction on the string: each
round reads the plain bytes up to the next escaped one -/
theorem parseQuotedStringLoop_escape (s x acc : List UInt8) (parsed fuel : Nat)
    (hs : ∀ c ∈ s, qPairChars.contains c = true) (hfuel : s.length < fuel)
    (hmax : (escape s).length < npos) :
    parseQuotedStringLoop false fuel acc ⟨escape s ++ 34 :: x, parsed⟩ =
      .ok (acc ++ s, ⟨x, parsed + (escape s).length + 1⟩) := by
  induction fuel generalizing s acc parsed with
  | zero => omega
  | succ fuel ih =>
    -- the plain bytes in front, and what follows them
    let p : UInt8 → Bool := fun c => !decide (c = 34 ∨ c = 92)
    have hsplit : s = s.takeWhile p ++ s.dropWhile p := List.takeWhile_append_dropWhile.symm
    have hu : ∀ c ∈ s.takeWhile p, ¬ (c = 34 ∨ c = 92) := fun c hc => by
      simpa [p] using List.mem_takeWhile_imp hc
    have hu' : ∀ c ∈ s.takeWhile p, qdtext1p1.contains c = true := fun c hc => by
      have := hu c hc
      exact qdtext1p1_of_qPair (hs c ((List.takeWhile_sublist p).subset hc)) (by tauto) (by tauto)
    have hatEnd : (Tokenizer.mk (escape s ++ 34 :: x) parsed).atEnd = false := by
      simp [Tokenizer.atEnd]
    rw [parseQuotedStringLoop_succ, hatEnd, if_neg Bool.false_ne_true]
    simp only [Bool.false_eq_true, if_false]
    rcases hr : s.dropWhile p with _ | ⟨c, r⟩
    · -- the closing quote follows the plain bytes
      generalize s.takeWhile p = u at hsplit hu hu'
      rw [hr, List.append_nil] at hsplit
      subst hsplit
      rw [escape_plain hu] at hmax ⊢
      rw [qdTextRun_plain acc parsed hu' ⟨34, rfl, by decide⟩ hmax]
      simp only [skipChar_cons, show (34 : UInt8) ≠ 92 by decide, if_false, if_true]
    · -- an escaped byte: the loop goes on after it
      have hc : c = 34 ∨ c = 92 := by
        have := List.head_dropWhile_not p (by rw [hr]; exact List.cons_ne_nil c r)
        simp only [hr, List.head_cons, p, Bool.not_eq_false', decide_eq_true_eq] at this
        exact this
      generalize s.takeWhile p = u at hsplit hu hu'
      rw [hr] at hsplit
      subst hsplit
      have hesc : escape (u ++ c :: r) = u ++ 92 :: c :: escape r := by
        rw [escape_append, escape_plain hu, escape_special hc]
      have hlen : u.length < npos := by
        rw [hesc] at hmax
        simp only [List.length_append, List.length_cons] at hmax
        omega
      have hr' : ∀ c' ∈ r, qPairChars.contains c' = true := fun c' hc' =>
        hs c' (List.mem_append_right u (List.mem_cons_of_mem c hc'))
      have hc' : qPairChars.contains c = true := hs c (List.mem_append_right u List.mem_cons_self)
      rw [hesc, List.append_assoc, List.cons_append, List.cons_append,
        qdTextRun_plain acc parsed hu' ⟨92, rfl, by decide⟩ hlen]
      simp only [skipChar_cons, if_true, Tokenizer.atEnd, List.isEmpty_cons, Bool.false_eq_true,
        tokenPrefix_one _ _ hc']
      rw [ih r (acc ++ u ++ [c]) _ hr' (by simp at hfuel; omega)
        (by rw [hesc] at hmax; simp only [List.length_append, List.length_cons] at hmax; omega)]
      have hpar : parsed + u.length + 1 + 1 + (escape r).length + 1 =
          parsed + (u ++ 92 :: c :: escape r).length + 1 := by
        simp only [List.length_append, List.length_cons]
        omega
      rw [if_neg not_false, hpar]
      simp only [List.append_assoc, List.singleton_append]

theorem length_le_escape (s : List UInt8) : s.length ≤ (escape s).length := by
  induction s with
  | nil => exact Nat.le_refl 0
  | cons c s ih =>
    rw [escape, List.flatMap_cons, ← escape, List.length_append, List.length_cons]
    split <;> simp <;> omega

/-- A quoted-string of HTTP/1.1 reads back as the bytes quoted, and the tokenizer stops right
after its closing quote. -/
theorem tokenOrQuotedString_quote (s x : List UInt8) (parsed : Nat)
    (hs : ∀ c ∈ s, qdtext1p1.contains c = true ∨ qPairChars.contains c = true)
    (hmax : (quote s ++ x).length < npos) :
    tokenOrQuotedString ⟨quote s ++ x, parsed⟩ false = .ok (s, ⟨x, parsed + (quote s).length⟩) := by
  have hs' : ∀ c ∈ s, qPairChars.contains c = true := fun c hc =>
    (hs c hc).elim qPair_of_qdtext1p1 id
  have hbuf : quote s ++ x = 34 :: (escape s ++ 34 :: x) := by simp [quote]
  have hqlen : (quote s).length = (escape s).length + 2 := by simp [quote]
  have hesc := length_le_escape s
  rw [hbuf, tokenOrQuotedString, skipChar_cons, if_pos rfl]
  dsimp only
  rw [parseQuotedStringSuffix, parseQuotedStringLoop_escape s x [] (parsed + 1) _ hs'
    (by simp only [List.length_append, List.length_cons]; omega)
    (by rw [hbuf] at hmax; simp only [List.length_cons, List.length_append] at hmax; omega),
    List.nil_append, hqlen]
  congr 3
  omega

/-- A token followed by a byte outside `TCHAR` reads back, in both modes. -/
theorem tokenOrQuotedString_token (t : List UInt8) (c : UInt8) (rest : List UInt8) (parsed : Nat)
    (http1p0 : Bool) (hne : t ≠ []) (ht : ∀ b ∈ t, TCHAR.contains b = true)
    (hc : TCHAR.contains c = false) (hmax : t.length < npos) :
    tokenOrQuotedString ⟨t ++ c :: rest, parsed⟩ http1p0 = .ok (t, ⟨c :: rest, parsed + t.length⟩) := by
  obtain ⟨b, t', rfl⟩ := List.exists_cons_of_ne_nil hne
  have hb : b ≠ 34 := fun h => by
    have := ht b List.mem_cons_self
    rw [h] at this
    exact absurd this (by decide)
  rw [tokenOrQuotedString_eq, List.cons_append, skipChar_cons, if_neg hb]
  dsimp only
  rw [← List.cons_append, tokenPrefix_append hne ht ⟨c, rfl, hc⟩ hmax]
  rfl

/-! ## Insufficient input -/

theorem qdtext_contains_quote (http1p0 : Bool) :
    (if http1p0 then qdtext1p0 else qdtext1p1).contains 34 = false := by
  cases http1p0 <;> decide

/-- A closing quote ends the loop. -/
theorem parseQuotedStringLoop_close (http1p0 : Bool) (fuel : Nat) (acc rest : List UInt8) (parsed : Nat) :
    parseQuotedStringLoop http1p0 (fuel + 1) acc ⟨34 :: rest, parsed⟩ = .ok (acc, ⟨rest, parsed + 1⟩) := by
  have hrun : qdTextRun (if http1p0 then qdtext1p0 else qdtext1p1) acc ⟨34 :: rest, parsed⟩ =
      (acc, ⟨34 :: rest, parsed⟩) := by
    have hstop : ∃ c ∈ (34 :: rest).head?,
        (if http1p0 then qdtext1p0 else qdtext1p1).contains c = false :=
      ⟨34, rfl, qdtext_contains_quote http1p0⟩
    have := qdTextRun_plain (u := []) acc parsed (List.forall_mem_nil _) hstop (by decide)
    rwa [List.nil_append, List.append_nil, List.length_nil, Nat.add_zero] at this
  rw [parseQuotedStringLoop_succ, if_neg (by simp [Tokenizer.atEnd])]
  simp only [hrun, skipChar_cons, show (34 : UInt8) ≠ 92 by decide, if_false, if_true]
  cases http1p0 <;> rfl

/-- When the loop runs out of input, some continuation completes the quoted-string: a closing
quote, or an escaped byte and a closing quote after a final backslash.  By induction on the
fuel, one case per way the round ends. -/
theorem parseQuotedStringLoop_insufficient (http1p0 : Bool) (fuel : Nat) (acc : List UInt8)
    (tok : Tokenizer) (h : parseQuotedStringLoop http1p0 fuel acc tok = .error .insufficientInput)
    (hmax : tok.buf.length + 2 < npos) :
    ∃ y, y ≠ [] ∧ ∀ fuel', tok.buf.length + y.length < fuel' →
      ∃ r, parseQuotedStringLoop http1p0 fuel' acc (tok.extend y) = .ok r := by
  induction fuel generalizing acc tok with
  | zero => cases h
  | succ fuel ih =>
    by_cases hend : tok.atEnd = true
    · -- between two rounds
      have hbuf : tok.buf = [] := by simpa [Tokenizer.atEnd] using hend
      refine ⟨[34], List.cons_ne_nil _ _, fun fuel' hf => ?_⟩
      obtain ⟨f, rfl⟩ : ∃ f, fuel' = f + 1 := ⟨fuel' - 1, by omega⟩
      obtain ⟨buf, parsed⟩ := tok
      simp only at hbuf
      subst hbuf
      exact ⟨_, parseQuotedStringLoop_close http1p0 f acc [] parsed⟩
    have hne : tok.buf ≠ [] := by simpa [Tokenizer.atEnd] using hend
    rw [parseQuotedStringLoop_succ, if_neg hend] at h
    generalize hrun : qdTextRun (if http1p0 then qdtext1p0 else qdtext1p1) acc tok = run at h
    obtain ⟨acc1, tok1⟩ := run
    have hlen1 : tok1.buf.length ≤ tok.buf.length := by
      have := qdTextRun_length_le (if http1p0 then qdtext1p0 else qdtext1p1) acc tok
      rw [hrun] at this
      exact this
    dsimp only at h
    split at h
    · -- a backslash
      rename_i tok2 hskip
      obtain ⟨rfl, hbs⟩ : http1p0 = false ∧ tok1.skipChar 92 = some tok2 := by
        cases http1p0
        · exact ⟨rfl, hskip⟩
        · cases hskip
      rw [if_neg Bool.false_ne_true] at hrun
      have hne1 : tok1.buf ≠ [] := fun he => by
        obtain ⟨buf1, p1⟩ := tok1
        simp only at he
        subst he
        cases hbs
      have hlen2 := skipChar_length hbs
      split at h
      · -- the buffer ends after the backslash
        rename_i hend2
        have hbuf2 : tok2.buf = [] := by simpa [Tokenizer.atEnd] using hend2
        refine ⟨[34, 34], List.cons_ne_nil _ _, fun fuel' hf => ?_⟩
        obtain ⟨f, rfl⟩ : ∃ f, fuel' = f + 2 := ⟨fuel' - 2, by simp at hf; omega⟩
        rw [parseQuotedStringLoop_succ, if_neg (by rw [Tokenizer.atEnd_extend_of_ne hne]; decide)]
        simp only [Bool.false_eq_true, if_false]
        rw [qdTextRun_extend hne (Or.inl (by rw [hrun]; exact hne1)) (by omega), hrun]
        dsimp only
        rw [Tokenizer.skipChar_extend hne1, hbs]
        obtain ⟨buf2, p2⟩ := tok2
        simp only at hbuf2
        subst hbuf2
        simp only [Option.map_some, Tokenizer.extend, List.nil_append, Tokenizer.atEnd,
          List.isEmpty_cons, Bool.false_eq_true, if_false,
          tokenPrefix_one [34] p2 (show qPairChars.contains 34 = true by decide)]
        exact ⟨_, parseQuotedStringLoop_close false f _ [] (p2 + 1)⟩
      · rename_i hend2
        split at h
        · cases h
        · -- an escaped byte, then the rest of the loop
          rename_i escaped tok3 hpre
          have hlen3 := tokenPrefix_length_le hpre
          obtain ⟨y, hy, hext⟩ := ih _ _ h (by omega)
          refine ⟨y, hy, fun fuel' hf => ?_⟩
          obtain ⟨f, rfl⟩ : ∃ f, fuel' = f + 1 := ⟨fuel' - 1, by omega⟩
          have hne2 : tok2.buf ≠ [] := by simpa [Tokenizer.atEnd] using hend2
          rw [parseQuotedStringLoop_succ, if_neg (by rw [Tokenizer.atEnd_extend_of_ne hne]; decide)]
          simp only [Bool.false_eq_true, if_false]
          rw [qdTextRun_extend hne (Or.inl (by rw [hrun]; exact hne1)) (by omega), hrun]
          dsimp only
          rw [Tokenizer.skipChar_extend hne1, hbs]
          simp only [Option.map_some, Tokenizer.atEnd_extend_of_ne hne2, Bool.false_eq_true,
            if_false, tokenPrefix_one_extend hpre]
          exact hext f (by omega)
    · -- no backslash: the closing quote, or the end of the buffer after the run
      rename_i hskip
      split at h
      · cases h
      · rename_i hq
        split at h
        · rename_i hend1
          have hbuf1 : tok1.buf = [] := by simpa [Tokenizer.atEnd] using hend1
          refine ⟨[34], List.cons_ne_nil _ _, fun fuel' hf => ?_⟩
          obtain ⟨f, rfl⟩ : ∃ f, fuel' = f + 1 := ⟨fuel' - 1, by omega⟩
          rw [parseQuotedStringLoop_succ, if_neg (by rw [Tokenizer.atEnd_extend_of_ne hne]; decide)]
          rw [qdTextRun_extend hne (Or.inr ⟨34, rfl, qdtext_contains_quote http1p0⟩) (by omega),
            hrun]
          obtain ⟨buf1, p1⟩ := tok1
          simp only at hbuf1
          subst hbuf1
          simp only [Tokenizer.extend, List.nil_append, skipChar_cons,
            show (34 : UInt8) ≠ 92 by decide, if_false, if_true]
          cases http1p0 <;> exact ⟨_, rfl⟩
        · cases h

/-- `InsufficientInput` is thrown only where some continuation of the buffer is accepted: a
value cut short is never returned as a complete one. -/
theorem tokenOrQuotedString_insufficient (buf : List UInt8) (parsed : Nat) (http1p0 : Bool)
    (hmax : buf.length + 2 < npos)
    (h : tokenOrQuotedString ⟨buf, parsed⟩ http1p0 = .error .insufficientInput) :
    ∃ y, y ≠ [] ∧ ∃ r, tokenOrQuotedString ⟨buf ++ y, parsed⟩ http1p0 = .ok r := by
  cases buf with
  | nil => exact ⟨[97, 44], List.cons_ne_nil _ _, _, rfl⟩
  | cons b rest =>
    rw [tokenOrQuotedString_eq, skipChar_cons] at h
    by_cases hb : b = 34
    · -- a quoted-string
      subst hb
      rw [if_pos rfl] at h
      dsimp only at h
      rw [parseQuotedStringSuffix] at h
      obtain ⟨y, hy, hext⟩ := parseQuotedStringLoop_insufficient http1p0 _ [] ⟨rest, parsed + 1⟩ h
        (by simp only [List.length_cons] at hmax ⊢; omega)
      refine ⟨y, hy, ?_⟩
      rw [tokenOrQuotedString_eq, List.cons_append, skipChar_cons, if_pos rfl]
      dsimp only
      rw [parseQuotedStringSuffix]
      exact hext _ (by simp)
    · -- a token that runs to the end of the buffer: a comma ends it
      rw [if_neg hb] at h
      dsimp only at h
      rw [if_neg (by simp [Tokenizer.atEnd])] at h
      split at h
      · cases h
      · rename_i tkn tok' htp
        split at h
        · rename_i hend
          have hbuf' : tok'.buf = [] := by simpa [Tokenizer.atEnd] using hend
          have htp' := tokenPrefix_extend_stop (y := [44]) htp ⟨44, rfl, by decide⟩
            (by simp only [List.length_cons] at hmax ⊢; omega)
          refine ⟨[44], List.cons_ne_nil _ _, (tkn, tok'.extend [44]), ?_⟩
          rw [tokenOrQuotedString_eq, List.cons_append, skipChar_cons, if_neg hb]
          dsimp only
          rw [if_neg (by simp [Tokenizer.atEnd])]
          rw [show (Tokenizer.mk (b :: (rest ++ [44])) parsed) =
            (Tokenizer.mk (b :: rest) parsed).extend [44] from rfl, htp']
          simp only [Tokenizer.extend, hbuf', List.nil_append, Tokenizer.atEnd, List.isEmpty_cons,
            Bool.false_eq_true, if_false]
        · cases h

/-! ## The three properties together -/

theorem tokenOrQuotedString_spec :
    (∀ (s x : List UInt8) (parsed : Nat),
        (∀ c ∈ s, qdtext1p1.contains c = true ∨ qPairChars.contains c = true) →
        (quote s ++ x).length < npos →
        tokenOrQuotedString ⟨quote s ++ x, parsed⟩ false =
          .ok (s, ⟨x, parsed + (quote s).length⟩)) ∧
      (∀ (t : List UInt8) (c : UInt8) (rest : List UInt8) (parsed : Nat) (http1p0 : Bool),
        t ≠ [] → (∀ b ∈ t, TCHAR.contains b = true) → TCHAR.contains c = false →
        t.length < npos →
        tokenOrQuotedString ⟨t ++ c :: rest, parsed⟩ http1p0 =
          .ok (t, ⟨c :: rest, parsed + t.length⟩)) ∧
      (∀ (buf : List UInt8) (parsed : Nat) (http1p0 : Bool), buf.length + 2 < npos →
        tokenOrQuotedString ⟨buf, parsed⟩ http1p0 = .error .insufficientInput →
        ∃ y, y ≠ [] ∧ ∃ r, tokenOrQuotedString ⟨buf ++ y, parsed⟩ http1p0 = .ok r) :=
  ⟨tokenOrQuotedString_quote, tokenOrQuotedString_token, tokenOrQuotedString_insufficient⟩

/-- `"\""` reads back as `"`, `a,` as `a`, and `"a` is completed by some continuation -/
theorem tokenOrQuotedString_spec_quote :
    tokenOrQuotedString ⟨quote [34] ++ [44], 0⟩ false = .ok ([34], ⟨[44], 4⟩) ∧
      tokenOrQuotedString ⟨[97] ++ 44 :: [], 0⟩ true = .ok ([97], ⟨[44], 1⟩) ∧
      ∃ y, y ≠ [] ∧ ∃ r, tokenOrQuotedString ⟨[34, 97] ++ y, 0⟩ false = .ok r :=
  ⟨tokenOrQuotedString_spec.1 [34] [44] 0 (by decide +kernel) (by decide),
    tokenOrQuotedString_spec.2.1 [97] 44 [] 0 true (List.cons_ne_nil _ _) (by decide +kernel)
      (by decide +kernel) (by decide),
    tokenOrQuotedString_spec.2.2 [34, 97] 0 false (by decide) (by decide)⟩

/-- HTTP/1.0 has no quoted-pair: the backslash of `"\""` is text and the escaped quote
closes the string. -/
theorem tokenOrQuotedString_http1p0_quote :
    tokenOrQuotedString ⟨quote [34] ++ [44], 0⟩ true = .ok ([92], ⟨[34, 44], 3⟩) := by
  decide

end Squid.Http.One
